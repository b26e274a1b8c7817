import CachedMoe.Gpu.PrefillReads

/-! # Prefills that fail

    The outcome of each part of a prefill, as a condition on what the components around it
    answer, and from that the runs that leave a read in flight: those that fail while the
    futures of a batch are not waited for. -/

namespace CachedMoe.Gpu

open CachedMoe CachedMoe.Store Attempt

/-! ### Conditions on the answers -/

namespace Input

variable (inp : Input) (L : Nat) (ahead : Nat → Option Nat)

/-- The read's file is there and the I/O engine takes it. -/
def accepted (k : ReadKey) : Bool :=
  (inp.require_file k).isOk && (inp.submit_future k).isOk

/-- The reads a batch issues for an expert: none if it is resident or was read ahead. -/
def reads_of (e : Nat) : List ReadKey :=
  if inp.kind L e ≠ .Resident ∧ ahead e = none then inp.keys L e else []

/-- The reads of a batch, in the order they are submitted. -/
def submits (bt : Batch) : List ReadKey := bt.experts.flatMap (inp.reads_of L ahead)

/-- One of a batch's submits is refused. -/
def Refused (bt : Batch) : Prop := ∃ k ∈ inp.submits L ahead bt, inp.accepted k = false

/-- Every read a batch waits for succeeds. -/
def ReadsLand (bt : Batch) : Prop :=
  (∀ e ∈ bt.experts, (ahead e).isSome → ∀ k ∈ inp.keys L e, (inp.result k).isOk = true) ∧
    ∀ k ∈ inp.submits L ahead bt, (inp.result k).isOk = true

/-- The experts of a batch that go through the tiled dispatch. -/
def n_small (bt : Batch) : Nat :=
  (bt.experts.filter fun e => inp.count L e < inp.pcfg.coopmat_min_rows).length

/-- The GPU runs batch `i`. -/
def Dispatches (i : Nat) (bt : Batch) : Prop :=
  (∀ e ∈ bt.experts, (ahead e).isSome ∧ inp.kind L e = .Fill → (inp.op (.copy L e)).isOk = true) ∧
    (0 < inp.n_small L bt → (inp.op (.compute L i)).isOk = true) ∧
    (inp.n_small L bt < bt.experts.length → (inp.op (.compute_coop L i)).isOk = true)

/-- Batch `i` is computed. -/
def Computes (i : Nat) (bt : Batch) : Prop :=
  inp.ReadsLand L ahead bt ∧ inp.Dispatches L ahead i bt

/-- The loop over the batches runs to its end, from batch `i` on. -/
def BatchesRun : Nat → Option Batch → List Batch → Prop
  | i, prev, [] => ∀ p ∈ prev, inp.Computes L ahead (i - 1) p
  | i, prev, bt :: bts =>
    ¬ inp.Refused L ahead bt ∧ (∀ p ∈ prev, inp.Computes L ahead (i - 1) p) ∧
      BatchesRun (i + 1) (some bt) bts

/-- The loop over the batches stops while reads are out that no one will wait for: a submit
    is refused after a read of its batch was accepted, or while the batch before has reads
    out; or a batch is not computed and the next one has reads out. -/
def StrandsBatches : Nat → Option Batch → List Batch → Prop
  | _, _, [] => False
  | i, prev, bt :: bts =>
    inp.Refused L ahead bt ∧
        ((∃ k ∈ (inp.submits L ahead bt).head?, inp.accepted k = true) ∨
          ∃ p ∈ prev, inp.submits L ahead p ≠ []) ∨
      ¬ inp.Refused L ahead bt ∧ (∃ p ∈ prev, ¬ inp.Computes L ahead (i - 1) p) ∧
        inp.submits L ahead bt ≠ [] ∨
      ¬ inp.Refused L ahead bt ∧ (∀ p ∈ prev, inp.Computes L ahead (i - 1) p) ∧
        StrandsBatches (i + 1) (some bt) bts

end Input

variable {inp : Input} {L : Nat} {ahead : Nat → Option Nat} {s s' : State} {i j n : Nat}
  {es : List Nat} {ks : List ReadKey}

/-! ### The state of the batch loop -/

/-- What holds throughout the batch loop: the futures of the read-ahead are those of its
    experts' reads, no one has waited for those of `todo`, and the batches from `n` on have
    none. -/
structure Base (inp : Input) (L : Nat) (ahead : Nat → Option Nat) (n : Nat) (todo : List Nat)
    (s : State) : Prop where
  inv : Inv s
  ahead_of : ∀ e slot, ahead e = some slot →
    slot < s.ahead_range ∧ (s.futs (.ahead slot)).map Fut.key = inp.keys L e
  fresh : ∀ e ∈ todo, ∀ slot, ahead e = some slot → s.landed slot = false
  later : ∀ j, n ≤ j → s.futs (.batch j) = []

/-- Batch `i` with reservations for `es` and the reads `ks` out. -/
structure Open (inp : Input) (L : Nat) (i : Nat) (es : List Nat) (ks : List ReadKey)
    (s : State) : Prop where
  keys : (s.futs (.batch i)).map Fut.key = ks
  pending : Pending s i es
  kinds : ∀ e ∈ es, (s.dest e).kind = inp.kind L e

theorem Open.of_no_futs (h : s.futs (.batch i) = []) : Open inp L i [] [] s where
  keys := by rw [h]; rfl
  pending := by
    intro f hf
    rw [h] at hf
    cases hf
  kinds := fun e he => absurd he List.not_mem_nil

theorem Open.no_futs (h : Open inp L i es [] s) : s.futs (.batch i) = [] :=
  List.map_eq_nil_iff.mp h.keys

section LandsOnly

variable {slots : List Nat}

theorem LandsOnly.open (h : LandsOnly slots s s') (hinv : Inv s) (ho : Open inp L i es ks s) :
    Open inp L i es ks s' := by
  obtain ⟨hreads, hfuts, hrange, hdest, hheld⟩ := h.frame
  exact ⟨hfuts ▸ ho.keys, h.pending hinv ho.pending, hdest ▸ ho.kinds⟩

theorem LandsOnly.base {todo todo' : List Nat} (h : LandsOnly slots s s')
    (hb : Base inp L ahead n todo s) (hsub : ∀ e ∈ todo', e ∈ todo)
    (hclear : ∀ e ∈ todo', ∀ slot, ahead e = some slot → slot ∉ slots) :
    Base inp L ahead n todo' s' := by
  obtain ⟨hreads, hfuts, hrange, hdest, hheld⟩ := h.frame
  refine ⟨h.inv hb.inv, ?_, ?_, ?_⟩
  · rw [hfuts, hrange]
    exact hb.ahead_of
  · intro e he slot hslot
    obtain ⟨fs, l, rfl, _, hl⟩ := h
    exact (hl slot (hclear e he slot hslot)).trans (hb.fresh e (hsub e he) slot hslot)
  · rw [hfuts]
    exact hb.later

end LandsOnly

theorem Base.wait {todo : List Nat} {fs : List Fut} (h : Base inp L ahead n todo s)
    (hfs : ∀ f ∈ fs, ∃ k, f ∈ s.futs k) : Base inp L ahead n todo (s.wait fs) :=
  ⟨h.inv.wait hfs, h.ahead_of, h.fresh, h.later⟩

theorem Open.wait {fs : List Fut} (h : Open inp L i es ks s) (hinv : Inv s)
    (hfs : ∀ f ∈ fs, ∃ k, k ≠ .batch i ∧ f ∈ s.futs k) : Open inp L i es ks (s.wait fs) :=
  ⟨h.keys, h.pending.wait hinv hfs, h.kinds⟩

theorem Base.release {todo : List Nat} (h : Base inp L ahead n todo s) (es : List Nat)
    (ok : Bool) : Base inp L ahead n todo (s.release es ok) := by
  have hinv := h.inv.release es ok
  obtain ⟨hs, st, fr, heq⟩ := release_frame (s := s) es ok
  rw [heq] at hinv ⊢
  exact ⟨hinv, h.ahead_of, h.fresh, h.later⟩

theorem Open.release (h : Open inp L i es ks s) (hinv : Inv s) {es' : List Nat}
    (hdisj : ∀ e ∈ es', e ∉ es) (ok : Bool) : Open inp L i es ks (s.release es' ok) := by
  have hpending := h.pending.release hinv hdisj ok
  obtain ⟨hs, st, fr, heq⟩ := release_frame (s := s) es' ok
  rw [heq] at hpending ⊢
  exact ⟨h.keys, hpending, h.kinds⟩

/-! ### `issue` -/

/-- Batch `i` is being issued, and the batch before it, if there is one, not computed. -/
structure Issuing (inp : Input) (L : Nat) (ahead : Nat → Option Nat) (i : Nat)
    (prev : Option Batch) (todo es : List Nat) (ks : List ReadKey) (s : State) : Prop where
  base : Base inp L ahead (i + 1) todo s
  cur : Open inp L i es ks s
  before : ∀ p ∈ prev, ∀ j, j + 1 = i → Open inp L j p.experts (inp.submits L ahead p) s
  tracked : Tracked s fun j => j = i ∨ j + 1 = i

section Issue

variable {prev : Option Batch} {todo : List Nat}

theorem Issuing.push {key : ReadKey} {dst : Dst} (h : Issuing inp L ahead i prev todo es ks s)
    (hkey : key.expert ∈ es) (hdst : ∀ slot, dst = .cache slot → OpenFill s key.expert slot) :
    Issuing inp L ahead i prev todo es (ks ++ [key]) (s.push key dst (.batch i)) where
  base := by
    refine ⟨h.base.inv.push, ?_, h.base.fresh, fun j hj => ?_⟩
    · intro e slot hslot
      rw [push_futs_of_ne (by simp)]
      exact h.base.ahead_of e slot hslot
    · rw [push_futs_of_ne (by simp; omega)]
      exact h.base.later j hj
  cur := by
    refine ⟨?_, h.cur.pending.push_self h.base.inv hkey hdst, h.cur.kinds⟩
    rw [push_futs_self, List.map_append, h.cur.keys]
    rfl
  before := by
    intro p hp j hj
    have hne : Futs.batch j ≠ .batch i := by simp; omega
    obtain ⟨hkeys, hpending, hkinds⟩ := h.before p hp j hj
    exact ⟨by rw [push_futs_of_ne hne, hkeys], hpending.push_other hne, hkinds⟩
  tracked := h.tracked.push_batch (.inl rfl)

theorem Issuing.reserve {e : Nat} (h : Issuing inp L ahead i prev todo es ks s) (he : e ∉ es)
    (hprev : ∀ p ∈ prev, e ∉ p.experts) :
    Issuing inp L ahead i prev todo (es ++ [e]) ks (s.reserve inp L e) := by
  obtain ⟨hreads, hjoined, hfuts, hrange, hlanded, hdest⟩ :=
    reserve_frame inp L s e
  refine ⟨⟨h.base.inv.reserve e, ?_, ?_, ?_⟩, ⟨?_, ?_, ?_⟩, ?_, h.tracked.reserve e⟩
  · rw [hfuts, hrange]
    exact h.base.ahead_of
  · rw [hlanded]
    exact h.base.fresh
  · rw [hfuts]
    exact h.base.later
  · rw [hfuts]
    exact h.cur.keys
  · intro f hf
    obtain ⟨hmem, hrest⟩ := h.cur.pending.reserve inp L he f hf
    exact ⟨List.mem_append_left _ hmem, hrest⟩
  · intro e' he'
    rcases List.mem_append.mp he' with he' | he'
    · rw [hdest e' fun heq => he (heq ▸ he')]
      exact h.cur.kinds e' he'
    · rw [List.mem_singleton.mp he', reserve_kind]
  · intro p hp j hj
    obtain ⟨hkeys, hpending, hkinds⟩ := h.before p hp j hj
    refine ⟨hfuts ▸ hkeys, hpending.reserve inp L (hprev p hp), fun e' he' => ?_⟩
    rw [hdest e' fun heq => hprev p hp (heq ▸ he')]
    exact hkinds e' he'

/-- The accepted reads of an expert are out, up to the first refused one. -/
theorem read_expert_spec {e : Nat} {dst : Dst} (he : e ∈ es) :
    Spec (fun s => Issuing inp L ahead i prev todo es ks s ∧
        ∀ slot, dst = .cache slot → OpenFill s e slot)
      (read_expert inp L e dst (.batch i))
      (∀ k ∈ inp.keys L e, inp.accepted k = true)
      (fun _ s => Issuing inp L ahead i prev todo es (ks ++ inp.keys L e) s)
      (fun s => ∃ pre k post, inp.keys L e = pre ++ k :: post ∧
        (∀ k' ∈ pre, inp.accepted k' = true) ∧ ¬ inp.accepted k = true ∧
        Issuing inp L ahead i prev todo es (ks ++ pre) s) := by
  -- the loop keeps that the reads before the refused one are out
  have hloop := Spec.forM (inp.keys L e)
    (fun key => do
      ofExcept (inp.require_file key)
      ofExcept (inp.submit_future key)
      modify fun s => s.push key dst (.batch i))
    (fun k => inp.accepted k = true)
    (fun pre s => Issuing inp L ahead i prev todo es (ks ++ pre) s ∧
      ∀ slot, dst = .cache slot → OpenFill s e slot)
    (fun pre _ s => Issuing inp L ahead i prev todo es (ks ++ pre) s) (by
      intro pre k post hkeys
      have hexpert : k.expert = e := by
        have hmem : k ∈ inp.keys L e := by
          rw [hkeys]
          exact List.mem_append_right _ List.mem_cons_self
        obtain ⟨r, _, rfl⟩ := List.mem_map.mp hmem
        rfl
      have hbody := Spec.bind (Spec.ofExcept (r := inp.require_file k)
          (P := fun s => Issuing inp L ahead i prev todo es (ks ++ pre) s ∧
            ∀ slot, dst = .cache slot → OpenFill s e slot)
          (E := fun s => Issuing inp L ahead i prev todo es (ks ++ pre) s)
          (fun _ _ _ h => h) fun _ h => h.1) fun _ _ =>
        Spec.bind (Spec.ofExcept (r := inp.submit_future k) (fun _ _ _ h => h) fun _ h => h.1)
          fun _ _ => Spec.modify (f := fun s => s.push k dst (.batch i))
            (Q := fun _ s => Issuing inp L ahead i prev todo es (ks ++ (pre ++ [k])) s ∧
              ∀ slot, dst = .cache slot → OpenFill s e slot) (by
              rintro s ⟨h, hdst⟩
              rw [← List.append_assoc]
              exact ⟨h.push (hexpert ▸ he) (hexpert ▸ hdst), hdst⟩)
      exact hbody.conseq (fun _ h => h) (by simp [Input.accepted]) (fun _ _ _ h => h)
        fun _ _ h => h)
  exact hloop.conseq (fun s h => by rwa [List.append_nil]) Iff.rfl (fun _ _ _ h => h.1)
    fun _ _ h => h

theorem Issuing.land (h : Issuing inp L ahead i prev todo es ks s) {slots : List Nat}
    (hclear : ∀ e ∈ todo, ∀ slot, ahead e = some slot → slot ∉ slots) :
    Issuing inp L ahead i prev todo es ks (s.land_all inp slots).2 where
  base := land_all_only.base h.base (fun _ he => he) hclear
  cur := land_all_only.open h.base.inv h.cur
  before := fun p hp j hj => land_all_only.open h.base.inv (h.before p hp j hj)
  tracked := land_all_only.tracked h.tracked

theorem issue_expert_spec {bt : Batch} {e slot : Nat} (he : e ∉ es)
    (hprev : ∀ p ∈ prev, e ∉ p.experts) :
    Spec (fun s => Issuing inp L ahead i prev todo es ks s)
      (do
        modify fun s => s.reserve inp L e
        let s ← get
        whenever ((s.dest e).kind ≠ .Resident ∧ ahead e = none) <|
          read_expert inp L e
            (if (s.dest e).kind = .Fill then .cache (s.dest e).slot
             else .transit (bt.seg * inp.pcfg.transit_slots + slot))
            (.batch i))
      (∀ k ∈ inp.reads_of L ahead e, inp.accepted k = true)
      (fun _ s => Issuing inp L ahead i prev todo (es ++ [e]) (ks ++ inp.reads_of L ahead e) s)
      (fun s => ∃ pre k post, inp.reads_of L ahead e = pre ++ k :: post ∧
        (∀ k' ∈ pre, inp.accepted k' = true) ∧ ¬ inp.accepted k = true ∧
        Issuing inp L ahead i prev todo (es ++ [e]) (ks ++ pre) s) := by
  apply Spec.bind_total (Q := fun _ s => Issuing inp L ahead i prev todo (es ++ [e]) ks s ∧
    (s.dest e).kind = inp.kind L e ∧ ((s.dest e).kind = .Fill → OpenFill s e (s.dest e).slot))
  · exact Spec.modify fun s h => ⟨h.reserve he hprev, reserve_kind e, reserve_open⟩
  · rintro ⟨⟩
    apply Spec.get_bind
    rintro s ⟨hs, hkind, hopen⟩
    by_cases hreads : inp.kind L e ≠ .Resident ∧ ahead e = none
    · have hkeys : inp.reads_of L ahead e = inp.keys L e := if_pos hreads
      rw [hkeys, whenever, hkind, if_pos hreads]
      refine (read_expert_spec (List.mem_append_right _ (List.mem_singleton_self e))).conseq ?_
        Iff.rfl (fun _ _ _ h => h) fun _ _ h => h
      rintro s' rfl
      refine ⟨hs, fun slot' hslot' => ?_⟩
      split at hslot'
      · rename_i hfill
        cases hslot'
        exact hopen (hkind.trans hfill)
      · cases hslot'
    · have hnone : inp.reads_of L ahead e = [] := if_neg hreads
      rw [hnone, whenever, hkind, if_neg hreads, List.append_nil]
      refine Spec.pure (fun k hk => absurd hk List.not_mem_nil) ?_
      rintro s' rfl
      exact hs

/-- The reads that were accepted before the first refused one are none exactly when the
    first read of all is refused. -/
theorem accepted_head {pre post : List ReadKey} {k : ReadKey}
    (hpre : ∀ k' ∈ pre, inp.accepted k' = true) (hk : ¬ inp.accepted k = true) :
    pre ≠ [] ↔ ∃ k' ∈ (pre ++ k :: post).head?, inp.accepted k' = true := by
  cases pre with
  | nil => simpa using hk
  | cons k' pre => simpa using hpre k' List.mem_cons_self

/-- A batch is issued, or its accepted reads are out when the first refused one stops it. -/
theorem issue_spec {bt : Batch} (hnodup : bt.experts.Nodup)
    (hprev : ∀ p ∈ prev, ∀ e ∈ bt.experts, e ∉ p.experts)
    (hclear : bt.refills ahead → Clear ahead inp.pcfg.transit_slots bt.seg todo) :
    Spec (fun s => Issuing inp L ahead i prev todo [] [] s) (issue inp L ahead i bt)
      (¬ inp.Refused L ahead bt)
      (fun _ s => Issuing inp L ahead i prev todo bt.experts (inp.submits L ahead bt) s)
      (fun s => ∃ es ks, Issuing inp L ahead i prev todo es ks s ∧
        (ks ≠ [] ↔ ∃ k ∈ (inp.submits L ahead bt).head?, inp.accepted k = true)) := by
  have hfst : bt.experts.zipIdx.map Prod.fst = bt.experts := List.zipIdx_map_fst 0 _
  have hsubmits : ∀ l : List (Nat × Nat),
      (l.map Prod.fst).flatMap (inp.reads_of L ahead) =
        l.flatMap fun p => inp.reads_of L ahead p.1 := fun l => List.flatMap_map _ _ _
  apply Spec.bind_total (Q := fun _ s => Issuing inp L ahead i prev todo [] [] s)
  · exact Spec.whenever_modify fun s hrefill hs => hs.land (hclear hrefill)
  · rintro ⟨⟩
    -- the experts before the refused read are issued whole, its own in part
    have hloop := Spec.forM bt.experts.zipIdx
      (fun p : Nat × Nat => do
        modify fun s => s.reserve inp L p.1
        let s ← get
        whenever ((s.dest p.1).kind ≠ .Resident ∧ ahead p.1 = none) <|
          read_expert inp L p.1
            (if (s.dest p.1).kind = .Fill then .cache (s.dest p.1).slot
             else .transit (bt.seg * inp.pcfg.transit_slots + p.2))
            (.batch i))
      (fun p => ∀ k ∈ inp.reads_of L ahead p.1, inp.accepted k = true)
      (fun pre s => Issuing inp L ahead i prev todo (pre.map Prod.fst)
        (pre.flatMap fun p => inp.reads_of L ahead p.1) s)
      (fun pre p s => ∃ pre' k post, inp.reads_of L ahead p.1 = pre' ++ k :: post ∧
        (∀ k' ∈ pre', inp.accepted k' = true) ∧ ¬ inp.accepted k = true ∧
        Issuing inp L ahead i prev todo (pre.map Prod.fst ++ [p.1])
          ((pre.flatMap fun p => inp.reads_of L ahead p.1) ++ pre') s) (by
      intro pre p post hl
      have hexperts : bt.experts = pre.map Prod.fst ++ p.1 :: post.map Prod.fst := by
        rw [← hfst, hl, List.map_append, List.map_cons]
      have hmem : p.1 ∈ bt.experts := by
        rw [hexperts]
        exact List.mem_append_right _ List.mem_cons_self
      have hnot : p.1 ∉ pre.map Prod.fst := by
        rw [hexperts] at hnodup
        exact fun h => (List.disjoint_of_nodup_append hnodup) h List.mem_cons_self
      refine (issue_expert_spec hnot fun q hq => hprev q hq p.1 hmem).conseq (fun _ h => h) Iff.rfl
        ?_ fun _ _ h => h
      intro _ s _ h
      simpa only [List.map_append, List.map_cons, List.map_nil, List.flatMap_append,
        List.flatMap_cons, List.flatMap_nil, List.append_nil] using h)
    refine hloop.conseq (fun _ h => h) ?_ ?_ ?_
    · have hall : inp.submits L ahead bt =
          bt.experts.zipIdx.flatMap fun p => inp.reads_of L ahead p.1 := by
        rw [Input.submits, ← hsubmits, hfst]
      rw [Input.Refused, hall]
      simp only [List.mem_flatMap, not_exists, not_and, Bool.not_eq_false]
      constructor
      · rintro h k ⟨p, hp, hk⟩
        exact h p hp k hk
      · exact fun h p hp k hk => h k ⟨p, hp, hk⟩
    · intro _ s _ h
      rw [hfst] at h
      rw [Input.submits]
      rw [← hsubmits, hfst] at h
      exact h
    · rintro s _ ⟨pre, p, post, hl, hgood, _, pre', k, post', hreads, hpre', hk, hs⟩
      refine ⟨_, _, hs, ?_⟩
      have hall : inp.submits L ahead bt =
          ((pre.flatMap fun p => inp.reads_of L ahead p.1) ++ pre') ++ k ::
            (post' ++ post.flatMap fun p => inp.reads_of L ahead p.1) := by
        rw [Input.submits, ← hfst, hsubmits, hl, List.flatMap_append, List.flatMap_cons, hreads]
        simp only [List.append_assoc, List.cons_append]
      rw [hall]
      refine accepted_head (fun k' hk' => ?_) hk
      rcases List.mem_append.mp hk' with hk' | hk'
      · obtain ⟨q, hq, hk'⟩ := List.mem_flatMap.mp hk'
        exact hgood q hq k' hk'
      · exact hpre' k' hk'

end Issue

/-! ### `run_batch` -/

/-- Each slot of the read-ahead is one expert's. -/
def OneEach (ahead : Nat → Option Nat) : Prop :=
  ∀ e e' slot, ahead e = some slot → ahead e' = some slot → e = e'

section RunBatch

variable {bt : Batch} {todo : List Nat}

/-- What `run_batch` meets: its batch `j` is out, the batch `i` after it has the reservations
    `es` and the reads `ks`. -/
structure Waiting (inp : Input) (L : Nat) (ahead : Nat → Option Nat) (n i j : Nat) (bt : Batch)
    (todo es : List Nat) (ks : List ReadKey) (s : State) : Prop where
  base : Base inp L ahead n (bt.experts ++ todo) s
  own : Open inp L j bt.experts (inp.submits L ahead bt) s
  next : Open inp L i es ks s
  tracked : Tracked s fun k => k = i ∨ k = j

/-- What it leaves: nothing of batch `j` is out. -/
structure Waited (inp : Input) (L : Nat) (ahead : Nat → Option Nat) (n i : Nat)
    (todo es : List Nat) (ks : List ReadKey) (s : State) : Prop where
  base : Base inp L ahead n todo s
  next : Open inp L i es ks s
  tracked : Tracked s fun k => k = i

theorem Waited.release (h : Waited inp L ahead n i todo es ks s) {es' : List Nat}
    (hdisj : ∀ e ∈ es', e ∉ es) (ok : Bool) :
    Waited inp L ahead n i todo es ks (s.release es' ok) :=
  ⟨h.base.release es' ok, h.next.release h.base.inv hdisj ok, h.tracked.release es' ok⟩

theorem nodup_filterMap_ahead (hone : OneEach ahead) (hnodup : es.Nodup) :
    (es.filterMap ahead).Nodup := by
  apply hnodup.filterMap
  intro e e' slot hslot hslot'
  exact hone e e' slot hslot hslot'

/-- The batch's reads are waited for, and all of them are looked at. -/
theorem collect_ok (h : Waiting inp L ahead n i j bt todo es ks s) (hone : OneEach ahead)
    (hnodup : bt.experts.Nodup) :
    (collect inp ahead j bt s).1 = true ↔ inp.ReadsLand L ahead bt := by
  have hland : (s.land_all inp (bt.experts.filterMap ahead)).1 = true ↔
      ∀ e ∈ bt.experts, (ahead e).isSome → ∀ k ∈ inp.keys L e, (inp.result k).isOk = true := by
    rw [land_all_ok (nodup_filterMap_ahead hone hnodup) (by
      intro slot hslot
      obtain ⟨e, he, hslot⟩ := List.mem_filterMap.mp hslot
      exact ⟨(h.base.ahead_of e slot hslot).1,
        h.base.fresh e (List.mem_append_left _ he) slot hslot⟩)]
    constructor
    · intro hall e he hsome k hk
      obtain ⟨slot, hslot⟩ := Option.isSome_iff_exists.mp hsome
      rw [← (h.base.ahead_of e slot hslot).2] at hk
      obtain ⟨f, hf, rfl⟩ := List.mem_map.mp hk
      exact hall slot (List.mem_filterMap.mpr ⟨e, he, hslot⟩) f hf
    · intro hall slot hslot f hf
      obtain ⟨e, he, hslot⟩ := List.mem_filterMap.mp hslot
      apply hall e he (Option.isSome_iff_exists.mpr ⟨slot, hslot⟩)
      rw [← (h.base.ahead_of e slot hslot).2]
      exact List.mem_map_of_mem hf
  have hfuts : (s.land_all inp (bt.experts.filterMap ahead)).2.futs = s.futs :=
    land_all_only.frame.2.1
  have hown : ((s.futs (.batch j)).all fun f => (inp.result f.key).isOk) = true ↔
      ∀ k ∈ inp.submits L ahead bt, (inp.result k).isOk = true := by
    rw [List.all_eq_true, ← h.own.keys, List.forall_mem_map]
  rw [collect, Bool.and_eq_true, hland, hfuts, hown]
  exact Iff.rfl

theorem Waiting.collect (h : Waiting inp L ahead n i j bt todo es ks s) (hone : OneEach ahead)
    (hnodup : (bt.experts ++ todo).Nodup) (hij : i ≠ j) :
    Waited inp L ahead n i todo es ks (collect inp ahead j bt s).2 ∧
      ∀ e ∈ bt.experts, ((collect inp ahead j bt s).2.dest e).kind = inp.kind L e := by
  have hlands : LandsOnly (bt.experts.filterMap ahead) s
      (s.land_all inp (bt.experts.filterMap ahead)).2 := land_all_only
  -- the slots of the batches still to come are other ones
  have hbase : Base inp L ahead n todo _ := hlands.base h.base
    (fun e he => List.mem_append_right _ he) (by
    intro e he slot hslot hmem
    obtain ⟨e', he', hslot'⟩ := List.mem_filterMap.mp hmem
    rw [hone e e' slot hslot hslot'] at he
    exact (List.disjoint_of_nodup_append hnodup) he' he)
  have hinv := hlands.inv h.base.inv
  have hdest : (Gpu.collect inp ahead j bt s).2.dest = s.dest := hlands.frame.2.2.2.1
  refine ⟨⟨hbase.wait fun f hf => ⟨_, hf⟩, ?_, ?_⟩, ?_⟩
  · refine (hlands.open h.base.inv h.next).wait hinv fun f hf => ⟨.batch j, ?_, hf⟩
    simpa using Ne.symm hij
  · exact (hlands.tracked h.tracked).wait_batch fun k hk => hk
  · rw [hdest]
    exact h.own.kinds

/-- The GPU work changes nothing of this state. -/
theorem dispatch_spec (hkinds : ∀ e ∈ bt.experts, (s.dest e).kind = inp.kind L e) :
    Spec (fun s' => s' = s) (dispatch inp L ahead j bt) (inp.Dispatches L ahead j bt)
      (fun _ s' => s' = s) (fun s' => s' = s) := by
  have hcopies := Spec.forM_invariant bt.experts
    (fun e => do
      let s ← get
      whenever ((ahead e).isSome ∧ (s.dest e).kind = .Fill) (ofExcept (inp.op (.copy L e))))
    (fun e => (ahead e).isSome ∧ inp.kind L e = .Fill → (inp.op (.copy L e)).isOk = true)
    (fun s' => s' = s) (fun s' => s' = s) (by
      intro e he
      apply Spec.get_bind
      intro s' hs'
      rw [hs', hkinds e he]
      exact Spec.whenever (fun _ => Spec.ofExcept (fun _ _ _ h => h) fun _ h => h) fun _ _ h => h)
  have hop : ∀ (c : Prop) [Decidable c] (r : Result Unit),
      Spec (fun s' => s' = s) (whenever c (ofExcept r) : Prefill Unit) (c → r.isOk = true)
        (fun _ s' => s' = s) (fun s' => s' = s) := by
    intro c _ r
    exact Spec.whenever (fun _ => Spec.ofExcept (fun _ _ _ h => h) fun _ h => h) fun _ _ h => h
  exact hcopies.bind fun _ _ => (hop _ _).bind fun _ _ => hop _ _

/-- However `run_batch` ends, the batch's reads have landed; the reads of the next batch are
    as they were. -/
theorem run_batch_spec (hone : OneEach ahead) (hnodup : (bt.experts ++ todo).Nodup)
    (hdisj : ∀ e ∈ bt.experts, e ∉ es) (hij : i ≠ j) :
    Spec (Waiting inp L ahead n i j bt todo es ks) (run_batch inp L ahead j bt)
      (inp.Computes L ahead j bt) (fun _ => Waited inp L ahead n i todo es ks)
      (Waited inp L ahead n i todo es ks) := by
  apply Spec.of_start
  intro s hs
  have hnodup' : bt.experts.Nodup := (List.nodup_append.mp hnodup).1
  obtain ⟨hwaited, hkinds⟩ := hs.collect hone hnodup hij
  have hcollect : Spec (fun s' => s' = s)
      (modifyGet (collect inp ahead j bt) : Prefill Bool) True
      (fun read_ok s' => (read_ok = true ↔ inp.ReadsLand L ahead bt) ∧
        s' = (collect inp ahead j bt s).2) (Waited inp L ahead n i todo es ks) := by
    apply Spec.modifyGet
    rintro s' rfl
    exact ⟨collect_ok hs hone hnodup', rfl⟩
  apply Spec.bind_total hcollect
  intro read_ok
  -- a failed read: the batch's reservations are released
  have hfail : Spec
      (fun s' => (read_ok = true ↔ inp.ReadsLand L ahead bt) ∧ s' = (collect inp ahead j bt s).2)
      (whenever (read_ok = false) (do
        modify fun s => s.release bt.experts false
        let s ← get
        throw { code := .Io, message := "expert read failed: " ++ why inp (s.futs (.batch j)) }) :
        Prefill Unit)
      (inp.ReadsLand L ahead bt) (fun _ s' => s' = (collect inp ahead j bt s).2)
      (Waited inp L ahead n i todo es ks) := by
    intro s' hs'
    obtain ⟨hread, rfl⟩ := hs'
    cases read_ok with
    | true => exact ⟨hread.mp rfl, rfl⟩
    | false =>
      refine ⟨fun h => ?_, hwaited.release hdisj false⟩
      cases hread.mpr h
  refine hfail.bind fun _ _ => ?_
  have hrelease : Spec (fun s' => s' = (collect inp ahead j bt s).2)
      (modify fun s => s.release bt.experts true : Prefill Unit) True
      (fun _ => Waited inp L ahead n i todo es ks) (fun s' => s' = (collect inp ahead j bt s).2) := by
    apply Spec.modify
    rintro s' rfl
    exact hwaited.release hdisj true
  refine ((dispatch_spec hkinds).bind fun _ _ => hrelease).conseq (fun _ h => h)
    (iff_of_eq (and_true _)) (fun _ _ _ h => h) ?_
  rintro s' _ rfl
  exact hwaited

end RunBatch

/-! ### The loop over the batches -/

/-- Every read was waited for, or `destroy` will. -/
def Clean (s : State) : Prop := Inv s ∧ Tracked s fun _ => False

/-- A batch has reads out that no one will wait for. -/
def Stranded (s : State) : Prop := Inv s ∧ ∃ i es, s.futs (.batch i) ≠ [] ∧ Pending s i es

/-- Where a failure leaves the reads, with the condition that decides it. -/
def Left (strands : Prop) (s : State) : Prop := (strands → Stranded s) ∧ (¬ strands → Clean s)

theorem Left.congr {a b : Prop} (h : a ↔ b) (hs : Left a s) : Left b s :=
  ⟨fun hb => hs.1 (h.mpr hb), fun hb => hs.2 fun ha => hb (h.mp ha)⟩

theorem Left.clean {strands : Prop} (h : ¬ strands) (hs : Clean s) : Left strands s :=
  ⟨fun h' => absurd h' h, fun _ => hs⟩

section Exits

variable {α β : Type} {P : State → Prop} {m : Prefill α} {k : α → Prefill β} {ok ok' strands : Prop}
  {Q : α → State → Prop} {R : β → State → Prop}

/-- In front of what may strand reads, a step that strands none. -/
theorem clean_bind (h : Spec P m ok Q Clean)
    (hk : ok → ∀ a, Spec (Q a) (k a) ok' R (Left strands)) :
    Spec P (m >>= k) (ok ∧ ok') R (Left (ok ∧ strands)) := by
  refine (h.conseq (fun _ h => h) Iff.rfl (fun _ _ _ h => h) fun s hbad hs => ?_).bind
    fun hok a => (hk hok a).conseq (fun _ h => h) Iff.rfl (fun _ _ _ h => h) fun s _ hs => ?_
  · exact .clean (fun h => hbad h.1) hs
  · exact hs.congr ⟨fun hstrands => ⟨hok, hstrands⟩, fun h => h.2⟩

/-- After what may have stranded reads but has run, a step that strands none. -/
theorem bind_clean (h : Spec P m ok Q (Left strands)) (hnot : ok → ¬ strands)
    (hk : ok → ∀ a, Spec (Q a) (k a) ok' R Clean) :
    Spec P (m >>= k) (ok ∧ ok') R (Left strands) :=
  h.bind fun hok a => (hk hok a).conseq (fun _ h => h) Iff.rfl (fun _ _ _ h => h)
    fun _ _ hs => .clean (hnot hok) hs

end Exits

theorem Open.stranded (h : Open inp L i es ks s) (hinv : Inv s) (hks : ks ≠ []) : Stranded s := by
  refine ⟨hinv, i, es, fun hnone => hks ?_, h.pending⟩
  rw [← h.keys, hnone]
  rfl

theorem Open.no_keys (h : Open inp L i es ks s) (hks : ks = []) : s.futs (.batch i) = [] := by
  subst hks
  exact h.no_futs

/-- The experts of the batch before. -/
def prev_experts (prev : Option Batch) : List Nat := (prev.map Batch.experts).getD []

section Loop

variable {prev : Option Batch} {bt : Batch} {bts : List Batch} {todo : List Nat}

/-- The batches before `i - 1` are computed, `i - 1` is issued, `i` is next. -/
structure Looping (inp : Input) (L : Nat) (ahead : Nat → Option Nat) (i : Nat)
    (prev : Option Batch) (bts : List Batch) (s : State) : Prop where
  base : Base inp L ahead i (prev_experts prev ++ experts_of bts) s
  before : ∀ p ∈ prev, ∀ j, j + 1 = i → Open inp L j p.experts (inp.submits L ahead p) s
  tracked : Tracked s fun j => prev ≠ none ∧ j + 1 = i

theorem Looping.issuing (h : Looping inp L ahead i prev bts s) :
    Issuing inp L ahead i prev (prev_experts prev ++ experts_of bts) [] [] s where
  base := ⟨h.base.inv, h.base.ahead_of, h.base.fresh, fun j hj => h.base.later j (by omega)⟩
  cur := .of_no_futs (h.base.later i le_rfl)
  before := h.before
  tracked := h.tracked.mono fun _ hj => .inr hj.2

/-- A refused submit strands what its batch has out, and what the batch before has. -/
theorem Issuing.refused (h : Issuing inp L ahead i prev todo es ks s) (hi : prev = none ↔ i = 0) :
    Left (ks ≠ [] ∨ ∃ p ∈ prev, inp.submits L ahead p ≠ []) s := by
  refine ⟨?_, fun hclean => ⟨h.base.inv, h.tracked.erase ?_⟩⟩
  · rintro (hks | ⟨p, hp, hks⟩)
    · exact h.cur.stranded h.base.inv hks
    · cases i with
      | zero =>
        rw [hi.mpr rfl] at hp
        cases hp
      | succ j => exact (h.before p hp j rfl).stranded h.base.inv hks
  · rw [not_or, not_exists] at hclean
    rintro j (rfl | hj)
    · exact .inr (h.cur.no_keys (not_not.mp hclean.1))
    · cases hprev : prev with
      | none =>
        have hzero := hi.mp hprev
        omega
      | some p =>
        exact .inr ((h.before p hprev j hj).no_keys
          (not_not.mp fun hks => hclean.2 p ⟨hprev, hks⟩))

/-- A batch that is not computed strands what the next one has out. -/
theorem Waited.uncomputed (h : Waited inp L ahead n i todo es ks s) : Left (ks ≠ []) s := by
  refine ⟨fun hks => h.next.stranded h.base.inv hks, fun hks => ⟨h.base.inv, h.tracked.erase ?_⟩⟩
  rintro j rfl
  exact .inr (h.next.no_keys (not_not.mp hks))

/-- The batch before, if there is one, is computed. -/
def run_prev (inp : Input) (L : Nat) (ahead : Nat → Option Nat) (i : Nat) :
    Option Batch → Prefill Unit
  | none => pure ()
  | some p => run_batch inp L ahead (i - 1) p

theorem batch_loop_nil : batch_loop inp L ahead i prev [] = run_prev inp L ahead i prev := by
  cases prev with
  | none => rfl
  | some p => rfl

theorem batch_loop_cons : batch_loop inp L ahead i prev (bt :: bts) =
    (do
      issue inp L ahead i bt
      run_prev inp L ahead i prev
      batch_loop inp L ahead (i + 1) (some bt) bts) := by
  cases prev with
  | none => rfl
  | some p => rfl

theorem run_prev_spec (hone : OneEach ahead) (hi : prev = none ↔ i = 0)
    (hnodup : (prev_experts prev ++ todo).Nodup)
    (hdisj : ∀ p ∈ prev, ∀ e ∈ p.experts, e ∉ es) :
    Spec (Issuing inp L ahead i prev (prev_experts prev ++ todo) es ks)
      (run_prev inp L ahead i prev) (∀ p ∈ prev, inp.Computes L ahead (i - 1) p)
      (fun _ => Waited inp L ahead (i + 1) i todo es ks)
      (Waited inp L ahead (i + 1) i todo es ks) := by
  cases prev with
  | none =>
    have hzero : i = 0 := hi.mp rfl
    refine Spec.pure (fun p hp => by cases hp) fun s h => ⟨h.base, h.cur, h.tracked.mono ?_⟩
    rintro j (hj | hj)
    · exact hj
    · omega
  | some p =>
    have hpos : i ≠ 0 := fun h => Option.some_ne_none p (hi.mpr h)
    refine (run_batch_spec hone hnodup (hdisj p rfl) (j := i - 1) (by omega)).conseq ?_ ?_
      (fun _ _ _ h => h) fun _ _ h => h
    · intro s h
      exact ⟨h.base, h.before p rfl _ (by omega), h.cur, h.tracked.mono fun j hj => by omega⟩
    · constructor
      · rintro h q hq
        rw [← Option.some.inj hq]
        exact h
      · exact fun h => h p rfl

theorem strands_refused (h : inp.Refused L ahead bt) :
    (∃ k ∈ (inp.submits L ahead bt).head?, inp.accepted k = true) ∨
        (∃ p ∈ prev, inp.submits L ahead p ≠ []) ↔
      inp.StrandsBatches L ahead i prev (bt :: bts) := by
  simp only [Input.StrandsBatches, h, true_and, not_true_eq_false, false_and, or_false]

theorem strands_uncomputed (h : ¬ inp.Refused L ahead bt)
    (h' : ¬ ∀ p ∈ prev, inp.Computes L ahead (i - 1) p) :
    inp.submits L ahead bt ≠ [] ↔ inp.StrandsBatches L ahead i prev (bt :: bts) := by
  have hsome : ∃ p ∈ prev, ¬ inp.Computes L ahead (i - 1) p := by
    push Not at h'
    exact h'
  simp only [Input.StrandsBatches, h, h', hsome, false_and, false_or, not_false_eq_true, true_and,
    or_false]

theorem strands_next (h : ¬ inp.Refused L ahead bt)
    (h' : ∀ p ∈ prev, inp.Computes L ahead (i - 1) p) :
    inp.StrandsBatches L ahead (i + 1) (some bt) bts ↔
      inp.StrandsBatches L ahead i prev (bt :: bts) := by
  have hnone : ¬ ∃ p ∈ prev, ¬ inp.Computes L ahead (i - 1) p := by
    rintro ⟨p, hp, hnot⟩
    exact hnot (h' p hp)
  rw [Input.StrandsBatches.eq_def _ _ _ _ _ (bt :: bts)]
  simp only [h, hnone, false_and, and_false, false_or, not_false_eq_true, true_and]
  exact ⟨fun hs => ⟨h', hs⟩, fun hs => hs.2⟩

/-- Whichever batch fails, what is left is what the outcome says. -/
theorem batch_loop_spec (hone : OneEach ahead) (hi : prev = none ↔ i = 0)
    (hnodup : (prev_experts prev ++ experts_of bts).Nodup)
    (hsafe : RefillSafe ahead inp.pcfg.transit_slots (prev_experts prev) bts) :
    Spec (Looping inp L ahead i prev bts) (batch_loop inp L ahead i prev bts)
      (inp.BatchesRun L ahead i prev bts) (fun _ => Clean)
      (Left (inp.StrandsBatches L ahead i prev bts)) := by
  -- the induction is on the batches still to be issued
  induction bts generalizing i prev with
  | nil =>
    rw [batch_loop_nil]
    have hclean : ∀ s, Waited inp L ahead (i + 1) i [] [] [] s → Clean s :=
      fun s h => h.uncomputed.2 fun hne => hne rfl
    exact (run_prev_spec hone hi hnodup fun _ _ _ _ => List.not_mem_nil).conseq
      (fun _ h => h.issuing) Iff.rfl (fun _ s _ h => hclean s h)
      fun s _ h => .clean id (hclean s h)
  | cons bt bts ih =>
    obtain ⟨hrefill, hsafe⟩ := hsafe
    have hexperts : (prev_experts prev ++ (bt.experts ++ experts_of bts)).Nodup := hnodup
    have hrest : (bt.experts ++ experts_of bts).Nodup := (List.nodup_append.mp hexperts).2.1
    have hapart : ∀ p ∈ prev, ∀ e ∈ p.experts, e ∉ bt.experts := by
      intro p hp e he hmem
      rw [Option.mem_def.mp hp] at hexperts
      exact (List.disjoint_of_nodup_append hexperts) he (List.mem_append_left _ hmem)
    rw [batch_loop_cons]
    have hissue : Spec (Looping inp L ahead i prev (bt :: bts)) (issue inp L ahead i bt)
        (¬ inp.Refused L ahead bt)
        (fun _ => Issuing inp L ahead i prev (prev_experts prev ++ (bt.experts ++ experts_of bts))
          bt.experts (inp.submits L ahead bt))
        (Left (inp.StrandsBatches L ahead i prev (bt :: bts))) := by
      refine (issue_spec (List.nodup_append.mp hrest).1
        (fun p hp e he hmem => hapart p hp e hmem he) hrefill).conseq (fun s h => h.issuing) Iff.rfl
        (fun _ _ _ h => h) ?_
      rintro s hrefused ⟨es, ks, h, hhead⟩
      refine (h.refused hi).congr ((or_congr hhead Iff.rfl).trans (strands_refused ?_))
      exact not_not.mp hrefused
    refine hissue.bind fun hnot _ => ?_
    have hprev : Spec
        (Issuing inp L ahead i prev (prev_experts prev ++ (bt.experts ++ experts_of bts))
          bt.experts (inp.submits L ahead bt))
        (run_prev inp L ahead i prev) (∀ p ∈ prev, inp.Computes L ahead (i - 1) p)
        (fun _ => Looping inp L ahead (i + 1) (some bt) bts)
        (Left (inp.StrandsBatches L ahead i prev (bt :: bts))) := by
      refine (run_prev_spec hone hi hexperts hapart).conseq (fun _ h => h) Iff.rfl ?_ ?_
      · intro _ s _ h
        refine ⟨h.base, fun p hp j hj => ?_, h.tracked.mono fun j hj => ?_⟩
        · cases hp
          cases hj
          exact h.next
        · exact ⟨Option.some_ne_none _, congrArg Nat.succ hj⟩
      · exact fun s hfail h => h.uncomputed.congr (strands_uncomputed hnot hfail)
    refine hprev.bind fun hrun _ => ?_
    exact (@ih (i + 1) (some bt) (by simp) hrest hsafe).conseq (fun _ h => h) Iff.rfl (fun _ _ _ h => h)
      fun s _ h => h.congr (strands_next hnot hrun)

end Loop

end CachedMoe.Gpu
