import CachedMoe.Gpu.TransitSlot

/-! # The safety of the transit ring

    A slot of the decode cache belongs to the prefill from its reservation to its release, and
    is used in between when the expert's reads, its copy from the transit or its residency
    have put it there. With the slots of the transit this covers every address of a job. -/

namespace CachedMoe.Gpu

open CachedMoe CachedMoe.Store Transfer

variable {inp : Input} {L : Nat} {A : AheadSlots}
  {image : Weights → Fin layout.kExpertSlotBytes → UInt8}

/-! ### A slot of the decode cache -/

section CacheSlot

variable {k : Nat} {out ps : List (Nat × Nat)} {c : Cell Weights Nat}

/-- The sink lends the slot for the expert. -/
def Input.lends (inp : Input) (L k e : Nat) : Prop :=
  (inp.dest L e).kind ≠ .Drop ∧ (inp.dest L e).slot = k

/-- Back with its owner. -/
structure Returned (inp : Input) (c : Cell Weights Nat) : Prop where
  mine : c.mine = false
  flight : c.flight = ∅
  settled : ∀ j ∈ c.started, inp.needed j → j ∈ c.done

/-- Lent for an expert of a batch that was issued and is not computed yet. -/
structure Lent (inp : Input) (L : Nat) (A : AheadSlots) (p : Nat × Nat) (c : Cell Weights Nat) :
    Prop where
  mine : c.mine = true
  flight : ∀ x, x ∈ c.flight ↔ inp.streams L A p.1 ∧ x ∈ parts_of inp L p.1
  whole : (inp.dest L p.1).kind = .Resident → parts_of inp L p.1 ⊆ c.landed
  settled : ∀ j ∈ c.started, inp.needed j → j ∈ c.done ∨ j = (L, p.1)

/-- Cache slot `k` in the middle of a layer; `running` are the experts issued and not computed. -/
inductive InCache (inp : Input) (L : Nat) (A : AheadSlots) (k : Nat) (running : List (Nat × Nat))
    (c : Cell Weights Nat) : Prop where
  | returned (h : Returned inp c) (none : ∀ p ∈ running, ¬ inp.lends L k p.1)
  | lent (p : Nat × Nat) (h : Lent inp L A p c) (mem : p ∈ running) (lends : inp.lends L k p.1)
      (only : ∀ q ∈ running, inp.lends L k q.1 → q = p)

theorem target_cache {p : Nat × Nat} (h : inp.target L p = .cache k) :
    (inp.dest L p.1).kind = .Fill ∧ inp.lends L k p.1 := by
  unfold Input.target at h
  split at h
  · rename_i hfill
    refine ⟨hfill, ?_, Dst.cache.inj h⟩
    rw [hfill]
    decide
  · cases h

theorem base_cache {p : Nat × Nat} (h : inp.base L p = .cache k) : inp.lends L k p.1 := by
  unfold Input.base at h
  split at h
  · rename_i hkind
    exact ⟨hkind, Dst.cache.inj h⟩
  · cases h

/-- An expert the slot is not lent for has no event in it. -/
theorem issued_elsewhere_cache {p : Nat × Nat} (h : ¬ inp.lends L k p.1) :
    ∀ ev ∈ inp.reads L A p, Elsewhere (inp.weights image) (.cache k) ev := by
  intro ev hev
  rcases List.mem_append.mp hev with hev | hev
  · unfold Input.takes at hev
    split at hev
    · cases hev
    · rename_i hkind
      obtain rfl := List.mem_singleton.mp hev
      refine elsewhere_take fun heq => h ⟨?_, Dst.cache.inj heq⟩
      rw [hkind]
      decide
    · rename_i hkind
      obtain rfl := List.mem_singleton.mp hev
      refine elsewhere_take fun heq => h ⟨?_, Dst.cache.inj heq⟩
      rw [hkind]
      decide
  · split at hev
    · obtain ⟨run, -, rfl⟩ := List.mem_map.mp hev
      exact elsewhere_start fun heq => h (target_cache heq).2
    · cases hev

theorem Input.lends.takes {e : Nat} (h : inp.lends L k e) : ∃ full,
    inp.takes L e = [.take (L, e) (.cache k) full] ∧
      (full = true ↔ (inp.dest L e).kind = .Resident) := by
  obtain ⟨hkind, hslot⟩ := h
  unfold Input.takes
  rw [hslot]
  cases hdest : (inp.dest L e).kind with
  | Drop => exact absurd hdest hkind
  | Fill => exact ⟨false, rfl, by decide⟩
  | Resident => exact ⟨true, rfl, by decide⟩

theorem Input.lends.target {p : Nat × Nat} (h : inp.lends L k p.1) (hstream : inp.streams L A p.1) :
    inp.target L p = .cache k := by
  unfold Input.target
  rw [h.2]
  cases hdest : (inp.dest L p.1).kind with
  | Drop => exact absurd hdest h.1
  | Fill => rfl
  | Resident => exact absurd hdest hstream.1

/-- An expert is issued that the slot is lent for. -/
theorem Returned.issue (h : Returned inp c) {p : Nat × Nat} (hlends : inp.lends L k p.1) :
    wp (inp.weights image) (.cache k) (inp.reads L A p) (Lent inp L A p) c := by
  obtain ⟨full, htakes, hfull⟩ := hlends.takes
  have hsettled : ∀ j ∈ c.started, inp.needed j → j ∈ c.done ∨ j = (L, p.1) :=
    fun j hj hneeded => .inl (h.settled j hj hneeded)
  rw [Input.reads, htakes, List.singleton_append]
  refine fun _ => ⟨trivial, ?_⟩
  have hcell : c.apply (inp.weights image) (Dst.cache k) (.take (L, p.1) (Dst.cache k) full) =
      { c with
        mine := true
        landed := {x | full = true ∧ x.1 = (L, p.1) ∧
          x.2 ∈ (inp.weights image).parts (L, p.1)} } := if_pos rfl
  rw [hcell]
  by_cases hstream : inp.streams L A p.1
  · rw [if_pos hstream, hlends.target hstream]
    apply wp_starts List.nodup_range rfl
    · intro x hx
      rw [h.flight] at hx
      exact hx.elim
    · exact fun j hj _ hneeded => h.settled j hj hneeded
    · intro c' hmine hflight hstarted hdone
      refine ⟨hmine, fun x => ?_, fun hresident => absurd hresident hstream.1,
        fun j hj hneeded => ?_⟩
      · rw [hflight, h.flight]
        constructor
        · rintro (hx | hx)
          · exact hx.elim
          · exact ⟨hstream, hx⟩
        · exact fun hx => .inr hx.2
      · rw [hdone]
        rcases hstarted hj with rfl | hj
        · exact .inr rfl
        · exact hsettled j hj hneeded
  · rw [if_neg hstream]
    refine ⟨rfl, fun x => ?_, fun hresident x hx => ⟨hfull.mpr hresident, hx⟩, hsettled⟩
    rw [h.flight]
    exact ⟨fun hx => hx.elim, fun hx => absurd hx.1 hstream⟩

theorem InCache.issue (hc : InCache inp L A k ps c) (qs : List (Nat × Nat)) :
    wp (inp.weights image) (.cache k) (qs.flatMap (inp.reads L A)) (InCache inp L A k (ps ++ qs))
      c := by
  induction qs generalizing ps c with
  | nil =>
    rw [List.append_nil]
    exact hc
  | cons p qs ih =>
    rw [List.flatMap_cons, wp_append, List.append_cons]
    by_cases hlends : inp.lends L k p.1
    · cases hc with
      | returned h hnone =>
        refine wp_mono (h.issue hlends) fun c' hc' => ih (.lent p hc' (by simp) hlends ?_)
        intro q hq hq'
        rcases List.mem_append.mp hq with hq | hq
        · exact absurd hq' (hnone q hq)
        · exact List.mem_singleton.mp hq
      | lent q h hmem hq honly =>
        -- the slot is out: nobody is handed it again
        obtain ⟨full, htakes, -⟩ := hlends.takes
        rw [Input.reads, htakes]
        intro henabled
        have hfree : c.mine = false := henabled rfl
        rw [h.mine] at hfree
        cases hfree
    · refine wp_elsewhere (issued_elsewhere_cache hlends) (ih ?_)
      cases hc with
      | returned h hnone =>
        refine .returned h fun q hq => ?_
        rcases List.mem_append.mp hq with hq | hq
        · exact hnone q hq
        · rw [List.mem_singleton.mp hq]
          exact hlends
      | lent q h hmem hq honly =>
        refine .lent q h (List.mem_append_left _ hmem) hq fun r hr hr' => ?_
        rcases List.mem_append.mp hr with hr | hr
        · exact honly r hr hr'
        · rw [List.mem_singleton.mp hr] at hr'
          exact absurd hr' hlends

/-! #### Computing a batch -/

/-! The events of an expert's computation, seen from a slot it was not lent. -/

theorem futures_elsewhere {p : Nat × Nat} (h : inp.streams L A p.1 → ¬ inp.lends L k p.1) :
    ∀ ev ∈ if inp.streams L A p.1 then inp.awaits L p.1 (inp.target L p) else [],
      Elsewhere (inp.weights image) (.cache k) ev := by
  intro ev hev
  split at hev
  · rename_i hstream
    obtain ⟨run, -, rfl⟩ := List.mem_map.mp hev
    exact elsewhere_await fun heq => h hstream (target_cache heq).2
  · cases hev

theorem copies_elsewhere {p : Nat × Nat}
    (h : (A.slot p.1).isSome ∧ (inp.dest L p.1).kind = .Fill → ¬ inp.lends L k p.1) :
    ∀ ev ∈ if (A.slot p.1).isSome ∧ (inp.dest L p.1).kind = .Fill then
        [(.copy (L, p.1) (.transit p.2) (.cache (inp.dest L p.1).slot) : RingEvent)] else [],
      Elsewhere (inp.weights image) (.cache k) ev := by
  intro ev hev
  split at hev
  · rename_i hcopy
    obtain rfl := List.mem_singleton.mp hev
    intro c
    refine copy_passive (fun heq => h hcopy ⟨?_, Dst.cache.inj heq⟩) fun heq => by cases heq
    rw [hcopy.2]
    decide
  · cases hev

theorem gives_elsewhere_cache {p : Nat × Nat} (h : ¬ inp.lends L k p.1) :
    ∀ ev ∈ inp.gives L p.1, Elsewhere (inp.weights image) (.cache k) ev := by
  intro ev hev
  unfold Input.gives at hev
  split at hev
  · cases hev
  · rename_i hkind
    obtain rfl := List.mem_singleton.mp hev
    exact elsewhere_give fun heq => h ⟨hkind, Dst.cache.inj heq⟩

/-- Blind reads go to the transit. -/
theorem land_all_elsewhere (slots : List Nat) (landed : Nat → Bool) :
    ∀ ev ∈ (Program.each (inp.land L A) slots landed).1,
      Elsewhere (inp.weights image) (.cache k) ev := by
  induction slots generalizing landed with
  | nil => exact fun ev hev => by cases hev
  | cons slot slots ih =>
    intro ev hev
    rcases List.mem_append.mp hev with hev | hev
    · unfold Input.land at hev
      cases horder : A.order[slot]? with
      | none =>
        rw [horder] at hev
        cases hev
      | some e =>
        rw [horder] at hev
        dsimp only at hev
        split at hev
        · obtain ⟨run, -, rfl⟩ := List.mem_map.mp hev
          exact elsewhere_await fun heq => by cases heq
        · cases hev
    · exact ih _ ev hev

theorem run_batch_unlent {bt : Batch} {Q : Cell Weights Nat → Prop}
    (hnone : ∀ p ∈ inp.placed A bt, ¬ inp.lends L k p.1)
    (hQ : ∀ done, Q { c with done := c.done ∪ done }) (landed : Nat → Bool) :
    wp (inp.weights image) (.cache k) (inp.run_batch L A bt landed).1 Q c := by
  rw [Input.run_batch, Program.andThen, wp_append]
  refine wp_elsewhere (land_all_elsewhere _ landed) (wp_append.mpr ?_)
  refine wp_none (fun p hp => futures_elsewhere fun _ => hnone p hp) (wp_append.mpr ?_)
  refine wp_none (fun p hp => copies_elsewhere fun _ => hnone p hp) (wp_append.mpr ?_)
  refine jobs_wp (fun p hp hbase => absurd (base_cache hbase) (hnone p hp)) fun done _ => ?_
  exact wp_none (fun p hp => gives_elsewhere_cache (hnone p hp)) (hQ done)

/-- The expert's reads are waited for, or it is there already, or comes from the transit. -/
theorem Lent.arrive {bt : Batch} {p : Nat × Nat} {es : List RingEvent}
    {Q : Cell Weights Nat → Prop} (h : Lent inp L A p c) (hnodup : bt.experts.Nodup)
    (hp : p ∈ inp.placed A bt) (hlends : inp.lends L k p.1)
    (hother : ∀ q ∈ inp.placed A bt, q ≠ p → ¬ inp.lends L k q.1)
    (hQ : ∀ c' : Cell Weights Nat, c'.mine = true → c'.flight = ∅ →
      parts_of inp L p.1 ⊆ c'.landed → c'.started = c.started → c'.done = c.done →
      wp (inp.weights image) (.cache k) es Q c') :
    wp (inp.weights image) (.cache k) (inp.futures L A bt ++ (inp.copies L A bt ++ es)) Q c := by
  have hnodup' : (inp.placed A bt).Nodup := nodup_placed hnodup
  rw [wp_append]
  by_cases hstream : inp.streams L A p.1
  · -- a Fill that its batch reads
    apply wp_only hnodup' hp
    · exact fun q hq hne => futures_elsewhere fun _ => hother q hq hne
    · rw [if_pos hstream, hlends.target hstream]
      apply wp_awaits List.nodup_range
      · exact fun run hrun => (h.flight _).mpr ⟨hstream, rfl, hrun⟩
      · rw [wp_append]
        refine wp_none (fun q hq => copies_elsewhere ?_) ?_
        · by_cases hq' : q = p
          · rintro ⟨hsome, -⟩
            rw [hq', hstream.2] at hsome
            cases hsome
          · exact fun _ => hother q hq hq'
        · refine hQ _ h.mine ?_ (fun x hx => .inr hx) rfl rfl
          ext x
          refine ⟨fun hx => ?_, fun hx => hx.elim⟩
          exact absurd ((h.flight x).mp hx.1).2 hx.2
  · have hempty : c.flight = ∅ := by
      ext x
      exact ⟨fun hx => absurd ((h.flight x).mp hx).1 hstream, fun hx => hx.elim⟩
    refine wp_none (fun q hq => futures_elsewhere ?_) ?_
    · by_cases hq' : q = p
      · rw [hq']
        exact fun hyes => absurd hyes hstream
      · exact fun _ => hother q hq hq'
    · rw [wp_append]
      by_cases hresident : (inp.dest L p.1).kind = .Resident
      · refine wp_none (fun q hq => copies_elsewhere ?_)
          (hQ c h.mine hempty (h.whole hresident) rfl rfl)
        by_cases hq' : q = p
        · rintro ⟨-, hfill⟩
          rw [hq', hresident] at hfill
          cases hfill
        · exact fun _ => hother q hq hq'
      · -- a Fill that was read ahead
        have hcopy : (A.slot p.1).isSome ∧ (inp.dest L p.1).kind = .Fill := by
          constructor
          · rw [Option.isSome_iff_ne_none]
            exact fun hnone => hstream ⟨hresident, hnone⟩
          · cases hkind : (inp.dest L p.1).kind with
            | Drop => exact absurd hkind hlends.1
            | Fill => rfl
            | Resident => exact absurd hkind hresident
        apply wp_only hnodup' hp
        · exact fun q hq hne => copies_elsewhere fun _ => hother q hq hne
        · rw [if_pos hcopy, hlends.2]
          have hcell : c.apply (inp.weights image) (Dst.cache k)
              (.copy (L, p.1) (.transit p.2) (Dst.cache k)) =
            { c with landed := {x | x.1 = (L, p.1) ∧ x.2 ∈ (inp.weights image).parts (L, p.1)} } :=
            if_pos rfl
          refine fun _ => ⟨⟨fun heq => (by cases heq), fun _ => ⟨h.mine, hempty⟩⟩, ?_⟩
          rw [hcell]
          exact hQ _ h.mine hempty (fun x hx => hx) rfl rfl

/-- An expert the slot is lent for is computed, and the slot goes back. -/
theorem Lent.run_batch {bt : Batch} {p : Nat × Nat} (h : Lent inp L A p c)
    (hnodup : bt.experts.Nodup) (hp : p ∈ inp.placed A bt) (hlends : inp.lends L k p.1)
    (honly : ∀ q ∈ inp.placed A bt, inp.lends L k q.1 → q = p) (landed : Nat → Bool) :
    wp (inp.weights image) (.cache k) (inp.run_batch L A bt landed).1 (Returned inp) c := by
  have hother : ∀ q ∈ inp.placed A bt, q ≠ p → ¬ inp.lends L k q.1 :=
    fun q hq hne hq' => hne (honly q hq hq')
  rw [Input.run_batch, Program.andThen, wp_append]
  refine wp_elsewhere (land_all_elsewhere _ landed) ?_
  refine h.arrive hnodup hp hlends hother fun c' hmine hflight hparts hstarted hdone => ?_
  rw [wp_append]
  refine jobs_wp (fun q hq hbase => ?_) fun done hall => ?_
  · rw [honly q hq (base_cache hbase)]
    exact ⟨hmine, hparts⟩
  · have hgives : inp.gives L p.1 = [.give (L, p.1) (.cache k)] := by
      rw [Input.gives, if_neg hlends.1, hlends.2]
    apply wp_only (nodup_placed hnodup) hp
    · exact fun q hq hne => gives_elsewhere_cache (hother q hq hne)
    · rw [hgives]
      have hcell : { c' with done := c'.done ∪ done }.apply (inp.weights image) (Dst.cache k)
          (.give (L, p.1) (Dst.cache k)) =
        { c' with done := c'.done ∪ done, mine := false, landed := ∅ } := if_pos rfl
      refine fun _ => ⟨fun _ => hflight, ?_⟩
      rw [hcell]
      refine ⟨rfl, hflight, fun j hj hneeded => ?_⟩
      dsimp only at hj ⊢
      rw [hstarted] at hj
      rw [hdone]
      rcases h.settled j hj hneeded with hold | rfl
      · exact .inl hold
      · exact .inr (hall p.1 (mem_placed hp))

/-- A batch is computed, and what it was lent goes back. -/
theorem InCache.run_batch {bt : Batch} (hc : InCache inp L A k (inp.placed A bt ++ out) c)
    (hnodup : bt.experts.Nodup) (hout : ∀ p ∈ out, p.1 ∉ bt.experts) (landed : Nat → Bool) :
    wp (inp.weights image) (.cache k) (inp.run_batch L A bt landed).1 (InCache inp L A k out)
      c := by
  cases hc with
  | returned h hnone =>
    refine run_batch_unlent (fun p hp => hnone p (List.mem_append_left _ hp)) (fun done => ?_)
      landed
    refine .returned ⟨h.mine, h.flight, fun j hj hneeded => .inl (h.settled j hj hneeded)⟩ ?_
    exact fun p hp => hnone p (List.mem_append_right _ hp)
  | lent p h hmem hlends honly =>
    by_cases hp : p ∈ inp.placed A bt
    · refine wp_mono (h.run_batch hnodup hp hlends
        (fun q hq => honly q (List.mem_append_left _ hq)) landed) fun c' hc' => ?_
      refine .returned hc' fun q hq hq' => ?_
      rw [honly q (List.mem_append_right _ hq) hq'] at hq
      exact hout p hq (mem_placed hp)
    · refine run_batch_unlent (fun q hq hq' => ?_) (fun done => ?_) landed
      · rw [honly q (List.mem_append_left _ hq) hq'] at hq
        exact hp hq
      · refine .lent p ⟨h.mine, h.flight, h.whole, fun j hj hneeded => ?_⟩
          ((List.mem_append.mp hmem).resolve_left hp) hlends
          fun q hq => honly q (List.mem_append_right _ hq)
        exact (h.settled j hj hneeded).imp_left .inl

theorem land_all_cache {P : (Nat → Bool) → Cell Weights Nat → Prop} (slots : List Nat)
    (hP : ∀ landed landed' c, P landed c → P landed' c) :
    Meets (inp.weights image) (.cache k) P (.each (inp.land L A) slots) P :=
  fun landed c hc => wp_elsewhere (land_all_elsewhere slots landed) (hP landed _ c hc)

theorem issue_cache {bt : Batch} : Meets (inp.weights image) (.cache k)
    (fun _ c => InCache inp L A k ps c) (inp.issue L A bt)
    fun _ c => InCache inp L A k (ps ++ inp.placed A bt) c := by
  refine Meets.andThen (Q := fun _ c => InCache inp L A k ps c) ?_
    (Meets.emit fun _ c hc => hc.issue (inp.placed A bt))
  split
  · exact land_all_cache _ fun _ _ _ h => h
  · exact Meets.emit fun _ c hc => hc

theorem batch_loop_cache {prev : Option Batch} {bts : List Batch} (h : InLoop inp L A prev bts) :
    Meets (inp.weights image) (.cache k)
      (fun _ c => InCache inp L A k (prev.toList.flatMap (inp.placed A)) c)
      (inp.batch_loop L A prev bts) fun _ c => InCache inp L A k [] c := by
  induction bts generalizing prev with
  | nil =>
    cases prev with
    | none => exact Meets.emit fun _ c hc => hc
    | some prev =>
      have hmem := List.mem_append_left [] (Option.mem_toList.mpr (rfl : some prev = some prev))
      exact fun landed c hc => hc.run_batch (h.nodup_experts hmem) (fun p hp => by cases hp) landed
  | cons bt bts ih =>
    have hrest := ih h.next
    cases prev with
    | none =>
      refine issue_cache.andThen (hrest.conseq (fun _ c hc => ?_) fun _ c hc => hc)
      simpa using hc
    | some prev =>
      have hprev : prev ∈ (some prev).toList ++ bt :: bts :=
        List.mem_append_left _ (Option.mem_toList.mpr rfl)
      have hout := h.placed_apart
      have hrun : Meets (inp.weights image) (.cache k)
          (fun _ c => InCache inp L A k (inp.placed A prev ++ inp.placed A bt) c)
          (inp.run_batch L A prev) fun _ c => InCache inp L A k (inp.placed A bt) c :=
        fun landed c hc => hc.run_batch (h.nodup_experts hprev) hout landed
      refine issue_cache.andThen (Meets.andThen (hrun.conseq (fun _ c hc => ?_) fun _ c hc => hc)
        (hrest.conseq (fun _ c hc => ?_) fun _ c hc => hc))
      · simpa using hc
      · simpa using hc

/-- A layer gives every slot of the cache back. -/
theorem Returned.layer (h : Returned inp c) : wp (inp.weights image) (.cache k)
    (inp.ahead_events L A ++ inp.moe_events L A) (Returned inp) c := by
  rw [wp_append]
  refine wp_elsewhere (fun ev hev => ?_) ?_
  · obtain ⟨p, -, hev⟩ := List.mem_flatMap.mp hev
    obtain ⟨run, -, rfl⟩ := List.mem_map.mp hev
    exact elsewhere_start fun heq => by cases heq
  · have hmoe : Meets (inp.weights image) (.cache k) (fun _ c => InCache inp L A k [] c)
        (inp.run_moe L A) fun _ c => InCache inp L A k [] c :=
      Meets.andThen (batch_loop_cache .start) (land_all_cache _ fun _ _ _ h => h)
    refine wp_mono (hmoe (fun _ => false) c (.returned h fun p hp => by cases hp)) fun c' hc' => ?_
    cases hc' with
    | returned h' => exact h'
    | lent p _ hmem => cases hmem

end CacheSlot

/-! ### The prefill -/

/-- Every buffer accepts what a prefill does. -/
theorem ring_accepted (ahead : Nat → AheadSlots) :
    Accepted (inp.weights image) Dst.own (inp.ring_events ahead) := by
  intro dst
  cases dst with
  | transit t =>
    refine wp_mono (wp_each (Q := Rested inp) (fun L _ c hc => hc.layer) ?_) fun _ _ => trivial
    exact ⟨rfl, rfl, fun j hj => hj.elim⟩
  | cache k =>
    refine wp_mono (wp_each (Q := Returned inp) (fun L _ c hc => hc.layer) ?_) fun _ _ => trivial
    exact ⟨rfl, rfl, fun j hj => hj.elim⟩

/-- Whatever the routing, the experts read ahead and the destinations the sink answers, and in
    whatever order the reads' bytes arrive: where an expert's address goes into its job, and where
    a dispatch reads through it, all of its bytes are there. A read goes out into a transit slot
    when no read of another expert is on its way there, and every expert of the routing that was
    read into the slot before is computed. -/
theorem transit_ring_safe (inp : Input) (ahead : Nat → AheadSlots)
    (image : Weights → Fin layout.kExpertSlotBytes → UInt8)
    {s : Transfer.State Weights Nat Dst (Fin layout.kExpertSlotBytes) UInt8}
    (h : LTS.Reachable (machine (inp.weights image) Dst.own (inp.ring_events ahead)) s) :
    (∀ i base rest, s.todo = .use i base :: rest → (inp.weights image).Stored i (s.mem base)) ∧
      ∀ i run slot rest, s.todo = .start i run (.transit slot) :: rest →
        (∀ j run', (j, run', .transit slot) ∈ s.flight → j = i ∧ run' ≠ run) ∧
          ∀ j run', .start j run' (.transit slot) ∈ s.past → j ≠ i → inp.needed j →
            .done j ∈ s.past :=
  ⟨fun _ _ _ htodo => complete_at_use (ring_accepted ahead) h htodo,
    fun _ _ _ _ htodo => alone_at_start (ring_accepted ahead) h htodo⟩

/-! ### Three experts in a ring of two slots -/

/-- One layer whose routing chose three of four experts, each of them one run of two bytes. -/
def three_experts : Input where
  prompt_size := 1
  num_hidden_layers := 1
  n_routed_experts := 4
  pcfg := { transit_slots := 1, replay := 1, transit_slots_pos := Nat.one_pos }
  handoff := false
  ids := fun _ => [0, 1, 2]
  require_expert := fun _ _ => .ok
    { runs := [⟨0, 0, 2, 0⟩], slot_bytes := 2, part_offset := fun _ => 0, part_bytes := fun _ => 0,
      part_in_slot := fun _ => Nat.two_pos }
  require_file := fun _ => .ok ()
  submit_future := fun _ => .ok ()
  result := fun _ => .ok ()
  resident := fun _ _ => false
  admit_streamed := fun _ _ => .ok {}
  ahead_segments := fun _ => 1
  op := fun _ => .ok ()

/-- Two experts are read ahead; the third goes into the slot of the first. -/
theorem three_experts_events : three_experts.ring_events three_experts.read_ahead =
    [.start (0, 0) 0 (.transit 0), .start (0, 1) 0 (.transit 1), .await (0, 0) 0 (.transit 0),
      .use (0, 0) (.transit 0), .use (0, 0) (.transit 0), .done (0, 0),
      .start (0, 2) 0 (.transit 0), .await (0, 1) 0 (.transit 1), .use (0, 1) (.transit 1),
      .use (0, 1) (.transit 1), .done (0, 1), .await (0, 2) 0 (.transit 0),
      .use (0, 2) (.transit 0), .use (0, 2) (.transit 0), .done (0, 2)] := by
  rfl

/-- The slot is refilled while the read of the second expert is out, and that read ends last. -/
theorem transit_ring_safe_three :
    ∃ s s', LTS.Reachable (machine (three_experts.weights fun i _ => UInt8.ofNat i.2) Dst.own
        (three_experts.ring_events three_experts.read_ahead)) s ∧
      LTS.Reachable (machine (three_experts.weights fun i _ => UInt8.ofNat i.2) Dst.own
        (three_experts.ring_events three_experts.read_ahead)) s' ∧
      ((0, 1), 0, .transit 1) ∈ s.flight ∧ .done (0, 0) ∈ s.past ∧
      (∀ j run', (j, run', .transit 0) ∈ s.flight → j = (0, 2) ∧ run' ≠ 0) ∧
      (three_experts.weights fun i _ => UInt8.ofNat i.2).Stored (0, 2) (s'.mem (.transit 0)) := by
  let start : Transfer.State Weights Nat Dst (Fin layout.kExpertSlotBytes) UInt8 :=
    { past := [], todo := three_experts.ring_events three_experts.read_ahead, flight := ∅,
      mem := fun _ _ => 0, mine := Dst.own }
  have hinit : (machine (three_experts.weights fun i _ => UInt8.ofNat i.2) Dst.own
      (three_experts.ring_events three_experts.read_ahead)).init start := ⟨rfl, rfl, rfl, rfl⟩
  -- both read-aheads go out, the first one lands and is computed
  have hout := ((LTS.Reachable.of_init hinit).step (host_step three_experts_events trivial)).step
    (host_step rfl trivial)
  have hland := (hout.step (finish_step (.inr (.inl rfl)))).step
    (host_step rfl fun hmem => hmem.2 rfl)
  have hrefill := ((hland.step (host_step rfl trivial)).step (host_step rfl trivial)).step
    (host_step rfl trivial)
  -- the third expert lands before the second
  have hthird := (hrefill.step (host_step rfl trivial)).step (finish_step (.inl rfl))
  have hsecond := (hthird.step
      (finish_step ⟨.inr ⟨.inl rfl, by simp⟩, by simp⟩)).step (host_step rfl fun hmem => hmem.2 rfl)
  have hdone := ((hsecond.step (host_step rfl trivial)).step (host_step rfl trivial)).step
    (host_step rfl trivial)
  have hlast := hdone.step (host_step rfl fun hmem => hmem.1.2 rfl)
  obtain ⟨halone, hcomputed⟩ :=
    (transit_ring_safe three_experts three_experts.read_ahead _ hrefill).2 _ _ _ _ rfl
  refine ⟨_, _, hrefill, hlast, ⟨.inl rfl, by simp⟩, ?_, halone,
    (transit_ring_safe three_experts three_experts.read_ahead _ hlast).1 _ _ _ rfl⟩
  exact hcomputed (0, 0) 0 (.head _) (by decide) (show 0 ∈ three_experts.used 0 by decide)

end CachedMoe.Gpu
