import CachedMoe.Gpu.PrefillFailure

/-! # What `gpu_prefill` leaves behind

    A prefill from its first layer to the return of `gpu_prefill`, with the condition under
    which a failed one leaves a read in flight into memory that is no longer its own.
    Every reservation is settled once in any case. -/

namespace CachedMoe.Gpu

open CachedMoe CachedMoe.Store Attempt

/-! ### Conditions on the answers -/

namespace Input

variable (inp : Input) (L : Nat)

/-- The layer's read-ahead finds its experts, and its reads are accepted. -/
def AheadRuns : Prop :=
  (∀ e ∈ inp.uncached L, (inp.require_expert L e).isOk = true) ∧
    ∀ e ∈ inp.ahead_order L, ∀ k ∈ inp.keys L e, inp.accepted k = true

/-- The transit slots the layer's read-ahead gives. -/
def ahead : Nat → Option Nat :=
  if inp.reads_ahead (inp.rows L) then fun e => (inp.ahead_order L).idxOf? e else fun _ => none

/-- The layer reaches its batches. -/
def LayerStarts : Prop :=
  (inp.op (.front L)).isOk = true ∧ (inp.reads_ahead (inp.rows L) → inp.AheadRuns L) ∧
    (inp.op (.attn L)).isOk = true ∧ (inp.op (.shared L)).isOk = true ∧
    (∀ e ∈ inp.used L, (inp.require_expert L e).isOk = true) ∧
    ∀ e ∈ inp.blind_unused L (inp.ahead L), (inp.require_expert L e).isOk = true

/-- The next layer's read-ahead goes out at this layer's tail. -/
def TailReads : Prop :=
  inp.pcfg.read_ahead_tail = true ∧ L + 1 < inp.num_hidden_layers ∧
    inp.reads_ahead (inp.rows (L + 1))

/-- The layer runs to its end. -/
def LayerRuns : Prop :=
  inp.LayerStarts L ∧ inp.BatchesRun L (inp.ahead L) 0 none (inp.batches L (inp.ahead L)) ∧
    (inp.TailReads L → inp.AheadRuns (L + 1)) ∧ (inp.op (.post L)).isOk = true

/-- The layer reaches its batches, and they stop with reads out. -/
def LayerStrands : Prop :=
  inp.LayerStarts L ∧ inp.StrandsBatches L (inp.ahead L) 0 none (inp.batches L (inp.ahead L))

/-- The prefill reaches a layer that stops with reads out. -/
def StrandsReads (inp : Input) : Prop :=
  inp.prompt_size ≠ 0 ∧ (inp.op .create).isOk = true ∧ (inp.op .embed).isOk = true ∧
    ∃ L < inp.num_hidden_layers, (∀ k < L, inp.LayerRuns k) ∧ inp.LayerStrands L

end Input

variable {inp : Input} {L : Nat} {s s' : State}

theorem isOk_map {α β : Type} (r : Result α) (f : α → β) : (r.map f).isOk = r.isOk := by
  cases r with
  | ok a => rfl
  | error e => rfl

/-- Batches that strand reads do not run to their end. -/
theorem not_run_of_strands {ahead : Nat → Option Nat} {i : Nat} {prev : Option Batch}
    {bts : List Batch} (h : inp.StrandsBatches L ahead i prev bts) :
    ¬ inp.BatchesRun L ahead i prev bts := by
  induction bts generalizing i prev with
  | nil => exact fun _ => h
  | cons bt bts ih =>
    rintro ⟨hnot, hprev, hrest⟩
    rcases h with ⟨href, _⟩ | ⟨_, ⟨p, hp, hbad⟩, _⟩ | ⟨_, _, hs⟩
    · exact hnot href
    · exact hbad (hprev p hp)
    · exact ih hs hrest

/-! ### The read-ahead -/

theorem ahead_eq_some (hreads : inp.reads_ahead (inp.rows L)) {e slot : Nat} :
    inp.ahead L e = some slot ↔ (inp.ahead_order L)[slot]? = some e := by
  rw [Input.ahead, if_pos hreads]
  constructor
  · intro h
    obtain ⟨hlt, heq, _⟩ := List.idxOf?_eq_some_iff.mp h
    exact List.getElem?_eq_some_iff.mpr ⟨hlt, heq⟩
  · intro h
    obtain ⟨hlt, heq⟩ := List.getElem?_eq_some_iff.mp h
    refine List.idxOf?_eq_some_iff.mpr ⟨hlt, heq, fun j hj hje => ?_⟩
    -- the order has no expert twice
    have hnodup : (inp.ahead_order L).Nodup := nodup_ahead_order
    have hinj := hnodup.getElem_inj_iff.mp (hje.trans heq.symm)
    omega

theorem one_each_ahead : OneEach (inp.ahead L) := by
  intro e e' slot h h'
  by_cases hreads : inp.reads_ahead (inp.rows L)
  · rw [ahead_eq_some hreads] at h h'
    rw [h] at h'
    exact Option.some.inj h'
  · rw [Input.ahead, if_neg hreads] at h
    cases h

/-- Nothing is read ahead, and every read was waited for. -/
structure Idle (s : State) : Prop where
  inv : Inv s
  tracked : Tracked s fun _ => False
  layer : s.ahead_layer = none
  range : s.ahead_range = 0

/-- The first `m` experts of the layer's read-ahead are read, and the reads `ks` of the next
    one are out. -/
structure ReadingAhead (inp : Input) (L m : Nat) (ks : List ReadKey) (s : State) : Prop where
  inv : Inv s
  tracked : Tracked s fun _ => False
  layer : s.ahead_layer = some L
  range : s.ahead_range = (inp.ahead_order L).length
  slot : ∀ e i, s.ahead_slot e = some i ↔ i < m ∧ (inp.ahead_order L)[i]? = some e
  keys : ∀ e i, i < m → (inp.ahead_order L)[i]? = some e →
    (s.futs (.ahead i)).map Fut.key = inp.keys L e
  next : (s.futs (.ahead m)).map Fut.key = ks
  later : ∀ i, m < i → s.futs (.ahead i) = []

/-- The layer's read-ahead is out. -/
def ReadAhead (inp : Input) (L : Nat) (s : State) : Prop :=
  ReadingAhead inp L (inp.ahead_order L).length [] s

theorem Idle.clean (h : Idle s) : Clean s := ⟨h.inv, h.tracked⟩

theorem ReadingAhead.clean {m : Nat} {ks : List ReadKey} (h : ReadingAhead inp L m ks s) :
    Clean s :=
  ⟨h.inv, h.tracked⟩

theorem Inv.drop_ahead (h : Inv s) : Inv s.drop_ahead where
  joined_lt := h.joined_lt
  ids_lt := by
    intro k f hf
    cases k with
    | ahead slot => cases hf
    | batch i => exact h.ids_lt (.batch i) f hf
  ids_once := by
    intro k k' f hf f' hf' hid
    cases k with
    | ahead slot => cases hf
    | batch i =>
      cases k' with
      | ahead slot => cases hf'
      | batch i' => exact h.ids_once (.batch i) (.batch i') f hf f' hf' hid
  cookies_lt := h.cookies_lt
  cookies_once := h.cookies_once
  settled := h.settled

theorem Idle.start_ahead (h : Idle s) :
    ReadingAhead inp L 0 [] (s.start_ahead L (inp.ahead_order L).length) where
  inv := by
    have hdrop := h.inv.drop_ahead
    exact ⟨hdrop.joined_lt, hdrop.ids_lt, hdrop.ids_once, hdrop.cookies_lt, hdrop.cookies_once,
      hdrop.settled⟩
  tracked := by
    -- with no slot read ahead, every read was waited for
    intro n hn hjoined
    rcases h.tracked n hn hjoined with ⟨f, hf, _⟩ | ⟨_, hfalse, _⟩
    · obtain ⟨slot, hslot, _⟩ := mem_ahead_futs.mp hf
      rw [h.range] at hslot
      exact absurd hslot (Nat.not_lt_zero _)
    · exact hfalse.elim
  layer := rfl
  range := rfl
  slot := by
    intro e i
    constructor
    · intro hnone
      cases hnone
    · exact fun hi => absurd hi.1 (Nat.not_lt_zero _)
  keys := fun e i hi => absurd hi (Nat.not_lt_zero _)
  next := rfl
  later := fun _ _ => rfl

theorem ReadingAhead.push {m : Nat} {ks : List ReadKey} {key : ReadKey} {dst : Dst}
    (h : ReadingAhead inp L m ks s) (hm : m < (inp.ahead_order L).length) :
    ReadingAhead inp L m (ks ++ [key]) (s.push key dst (.ahead m)) where
  inv := h.inv.push
  tracked := h.tracked.push_ahead (h.range ▸ hm)
  layer := h.layer
  range := h.range
  slot := h.slot
  keys := by
    intro e i hi he
    rw [push_futs_of_ne (by simp; omega)]
    exact h.keys e i hi he
  next := by
    rw [push_futs_self, List.map_append, h.next]
    rfl
  later := by
    intro i hi
    rw [push_futs_of_ne (by simp; omega)]
    exact h.later i hi

/-- The slot of an expert whose reads are out is entered. -/
theorem ReadingAhead.enter {m e : Nat} (h : ReadingAhead inp L m (inp.keys L e) s)
    (he : (inp.ahead_order L)[m]? = some e) :
    ReadingAhead inp L (m + 1) []
      { s with ahead_slot := Function.update s.ahead_slot e (some m) } where
  inv := ⟨h.inv.joined_lt, h.inv.ids_lt, h.inv.ids_once, h.inv.cookies_lt, h.inv.cookies_once,
    h.inv.settled⟩
  tracked := h.tracked
  layer := h.layer
  range := h.range
  slot := by
    intro e' i
    show Function.update s.ahead_slot e (some m) e' = some i ↔ _
    by_cases hee : e' = e
    · subst hee
      rw [Function.update_self, Option.some_inj]
      constructor
      · rintro rfl
        exact ⟨Nat.lt_succ_self _, he⟩
      · rintro ⟨_, hi⟩
        -- an expert is in the order once
        obtain ⟨hlt, _⟩ := List.getElem?_eq_some_iff.mp he
        exact (List.getElem?_inj hlt nodup_ahead_order).mp (he.trans hi.symm)
    · rw [Function.update_of_ne hee, h.slot]
      constructor
      · exact fun hi => ⟨Nat.lt_succ_of_lt hi.1, hi.2⟩
      · rintro ⟨hi, hei⟩
        refine ⟨?_, hei⟩
        rcases Nat.lt_succ_iff_lt_or_eq.mp hi with hi | rfl
        · exact hi
        · exact absurd (Option.some.inj (hei.symm.trans he)) hee
  keys := by
    intro e' i hi he'
    rcases Nat.lt_succ_iff_lt_or_eq.mp hi with hi | rfl
    · exact h.keys e' i hi he'
    · rw [he] at he'
      cases he'
      exact h.next
  next := by
    show (s.futs (.ahead (m + 1))).map Fut.key = []
    rw [h.later (m + 1) (Nat.lt_succ_self m)]
    rfl
  later := fun i hi => h.later i (by omega)

/-- An answer from outside, in the middle of a layer. -/
theorem answer_spec {P : State → Prop} {E : State → Prop} {r : Result Unit}
    (hE : ∀ s, P s → E s) :
    Spec P (ofExcept r : Prefill Unit) (r.isOk = true) (fun _ => P) E :=
  Spec.ofExcept (fun _ _ _ h => h) hE

theorem require_spec {P : State → Prop} {E : State → Prop} {es : List Nat}
    (hE : ∀ s, P s → E s) :
    Spec P (es.forM (require inp L)) (∀ e ∈ es, (inp.require_expert L e).isOk = true)
      (fun _ => P) E := by
  apply Spec.forM_invariant
  intro e _
  refine (answer_spec hE).conseq (fun _ h => h) ?_ (fun _ _ _ h => h) fun _ _ h => h
  rw [isOk_map]

theorem read_slot_spec {m e : Nat} (he : (inp.ahead_order L)[m]? = some e) :
    Spec (ReadingAhead inp L m []) (read_expert inp L e (.transit m) (.ahead m))
      (∀ k ∈ inp.keys L e, inp.accepted k = true)
      (fun _ => ReadingAhead inp L m (inp.keys L e)) Clean := by
  have hm : m < (inp.ahead_order L).length := (List.getElem?_eq_some_iff.mp he).1
  refine (Spec.forM (inp.keys L e) _ (fun k => inp.accepted k = true)
    (fun pre s => ReadingAhead inp L m pre s) (fun _ _ => Clean) ?_).conseq (fun _ h => h) Iff.rfl
    (fun _ _ _ h => h) ?_
  · intro pre k post _
    refine ((answer_spec (r := inp.require_file k) fun _ h => ReadingAhead.clean h).bind fun _ _ =>
      (answer_spec (r := inp.submit_future k) fun _ h => ReadingAhead.clean h).bind fun _ _ =>
        Spec.modify fun s h => h.push hm).conseq (fun _ h => h) (by simp [Input.accepted])
      (fun _ _ _ h => h) fun _ _ h => h
  · rintro s _ ⟨_, _, _, _, _, _, h⟩
    exact h

theorem read_ahead_spec :
    Spec Idle (read_ahead inp L) (inp.AheadRuns L) (fun _ => ReadAhead inp L) Clean := by
  refine (require_spec fun _ h => h.clean).bind fun _ _ => ?_
  apply Spec.bind_total (Q := fun _ => ReadingAhead inp L 0 [])
  · exact Spec.modify fun s h => h.start_ahead
  · rintro ⟨⟩
    refine (Spec.forM (inp.ahead_order L).zipIdx _
      (fun p => ∀ k ∈ inp.keys L p.1, inp.accepted k = true)
      (fun pre s => ReadingAhead inp L pre.length [] s) (fun _ _ => Clean) ?_).conseq
      (fun _ h => h) ?_ ?_ ?_
    · rintro pre ⟨e, m⟩ post hl
      -- the index of an element is the number of those before it
      have hget : (inp.ahead_order L).zipIdx[pre.length]? = some (e, m) := by
        rw [hl]
        simp
      rw [List.getElem?_zipIdx, Option.map_eq_some_iff] at hget
      obtain ⟨e', he', heq⟩ := hget
      obtain ⟨rfl, hm⟩ := Prod.mk.inj heq
      rw [Nat.zero_add] at hm
      subst hm
      refine ((read_slot_spec he').bind fun _ _ => Spec.modify fun s h => ?_).conseq (fun _ h => h)
        (iff_of_eq (and_true _)) (fun _ _ _ h => h) fun _ _ h => h
      rw [List.length_append]
      exact h.enter he'
    · constructor
      · intro h e he
        obtain ⟨p, hp, rfl⟩ : ∃ p ∈ (inp.ahead_order L).zipIdx, p.1 = e := by
          rw [← List.zipIdx_map_fst 0 (inp.ahead_order L)] at he
          exact List.mem_map.mp he
        exact h p hp
      · intro h p hp
        exact h p.1 (List.fst_mem_of_mem_zipIdx hp)
    · intro _ s _ h
      rw [List.length_zipIdx] at h
      exact h
    · rintro s _ ⟨_, _, _, _, _, _, h⟩
      exact h

/-! ### A layer -/

/-- What `run_moe` meets: the read-ahead of its layer, if there is one. -/
structure Ready (inp : Input) (L : Nat) (s : State) : Prop where
  inv : Inv s
  tracked : Tracked s fun _ => False
  slots : (if s.ahead_layer = some L then s.ahead_slot else fun _ => none) = inp.ahead L
  ahead_of : ∀ e slot, inp.ahead L e = some slot →
    slot < s.ahead_range ∧ (s.futs (.ahead slot)).map Fut.key = inp.keys L e

theorem Ready.clean (h : Ready inp L s) : Clean s := ⟨h.inv, h.tracked⟩

theorem Ready.of_idle (h : Idle s) (hreads : ¬ inp.reads_ahead (inp.rows L)) : Ready inp L s := by
  have hnone : inp.ahead L = fun _ => none := if_neg hreads
  refine ⟨h.inv, h.tracked, ?_, fun e slot hslot => ?_⟩
  · rw [h.layer, if_neg (by simp), hnone]
  · rw [hnone] at hslot
    cases hslot

theorem Ready.of_read_ahead (h : ReadAhead inp L s) (hreads : inp.reads_ahead (inp.rows L)) :
    Ready inp L s := by
  refine ⟨h.inv, h.tracked, ?_, fun e slot hslot => ?_⟩
  · rw [h.layer, if_pos rfl]
    funext e
    apply Option.ext
    intro slot
    rw [h.slot, ahead_eq_some hreads]
    exact ⟨fun hi => hi.2, fun hi => ⟨(List.getElem?_eq_some_iff.mp hi).1, hi⟩⟩
  · rw [ahead_eq_some hreads] at hslot
    have hlt := (List.getElem?_eq_some_iff.mp hslot).1
    exact ⟨h.range ▸ hlt, h.keys e slot hlt hslot⟩

/-- The locals of `run_moe` are new: no expert has a destination, no batch a future. -/
theorem Ready.start_moe (h : Ready inp L s) {bts : List Batch} :
    Looping inp L (inp.ahead L) 0 none bts s.start_moe where
  base := by
    refine ⟨⟨h.inv.joined_lt, ?_, ?_, fun e he => absurd rfl he, fun e _ he => absurd rfl he,
      h.inv.settled⟩, h.ahead_of, fun _ _ _ _ => rfl, fun _ _ => rfl⟩
    · intro k f hf
      cases k with
      | ahead slot => exact h.inv.ids_lt (.ahead slot) f hf
      | batch i => cases hf
    · intro k k' f hf f' hf' hid
      cases k with
      | batch i => cases hf
      | ahead slot =>
        cases k' with
        | batch i => cases hf'
        | ahead slot' => exact h.inv.ids_once (.ahead slot) (.ahead slot') f hf f' hf' hid
  before := fun p hp => by cases hp
  tracked := by
    intro n hn hjoined
    rcases h.tracked n hn hjoined with hahead | ⟨_, hfalse, _⟩
    · exact .inl hahead
    · exact hfalse.elim

theorem Clean.wait_ahead (h : Clean s) : Idle s.wait_ahead.drop_ahead := by
  have hinv : Inv s.wait_ahead := h.1.wait fun f hf => by
    obtain ⟨slot, _, hf⟩ := mem_ahead_futs.mp hf
    exact ⟨_, hf⟩
  refine ⟨hinv.drop_ahead, fun n hn hjoined => ?_, rfl, rfl⟩
  -- the futures still open are the ones just waited for
  rcases h.2 n hn fun hmem => hjoined (List.mem_append_left _ hmem) with
    ⟨f, hf, hid⟩ | ⟨_, hfalse, _⟩
  · exact absurd (List.mem_append_right _ (List.mem_map.mpr ⟨f, hf, hid⟩)) hjoined
  · exact hfalse.elim

theorem run_moe_spec :
    Spec (Ready inp L) (run_moe inp L)
      ((inp.op (.shared L)).isOk = true ∧ (∀ e ∈ inp.used L, (inp.require_expert L e).isOk = true) ∧
        (∀ e ∈ inp.blind_unused L (inp.ahead L), (inp.require_expert L e).isOk = true) ∧
        inp.BatchesRun L (inp.ahead L) 0 none (inp.batches L (inp.ahead L)))
      (fun _ => Idle)
      (Left ((inp.op (.shared L)).isOk = true ∧
        (∀ e ∈ inp.used L, (inp.require_expert L e).isOk = true) ∧
        (∀ e ∈ inp.blind_unused L (inp.ahead L), (inp.require_expert L e).isOk = true) ∧
        inp.StrandsBatches L (inp.ahead L) 0 none (inp.batches L (inp.ahead L)))) := by
  have hloop : Spec (Ready inp L)
      (do
        modify State.start_moe
        batch_loop inp L (inp.ahead L) 0 none (inp.batches L (inp.ahead L))
        modify fun s => s.wait_ahead.drop_ahead)
      (inp.BatchesRun L (inp.ahead L) 0 none (inp.batches L (inp.ahead L))) (fun _ => Idle)
      (Left (inp.StrandsBatches L (inp.ahead L) 0 none (inp.batches L (inp.ahead L)))) := by
    have hnodup : (prev_experts none ++ experts_of (inp.batches L (inp.ahead L))).Nodup :=
      nodup_batches
    apply Spec.bind_total (Q := fun _ => Looping inp L (inp.ahead L) 0 none
      (inp.batches L (inp.ahead L)))
    · exact Spec.modify fun s h => h.start_moe
    · rintro ⟨⟩
      exact ((batch_loop_spec one_each_ahead (by simp) hnodup refill_safe).bind
        fun _ _ => Spec.modify fun s h => h.wait_ahead).conseq (fun _ h => h)
        (iff_of_eq (and_true _)) (fun _ _ _ h => h) fun _ _ h => h
  refine clean_bind (answer_spec fun _ h => Ready.clean h) fun _ _ => ?_
  apply Spec.get_bind
  intro s hs
  rw [hs.slots]
  refine Spec.conseq (P := Ready inp L) ?_ (by rintro s' rfl; exact hs) Iff.rfl
    (fun _ _ _ h => h) fun _ _ h => h
  exact clean_bind (require_spec fun _ h => h.clean) fun _ _ =>
    clean_bind (require_spec fun _ h => h.clean) fun _ _ => hloop

/-- Between two layers: the next one is read ahead already, or not yet. -/
def Between (inp : Input) (L : Nat) (s : State) : Prop :=
  Idle s ∨ inp.reads_ahead (inp.rows L) ∧ inp.AheadRuns L ∧ ReadAhead inp L s

theorem Between.clean (h : Between inp L s) : Clean s := by
  rcases h with h | ⟨_, _, h⟩
  · exact h.clean
  · exact ReadingAhead.clean h

/-- The rows the tail of a layer asks about are those of the next layer. -/
theorem tail_rows : (if inp.replays ∧ L + 1 ≥ 20 then inp.replay_rows else inp.prompt_size) =
    inp.rows (L + 1) := by
  rw [Input.rows, Input.front_rows]
  by_cases h : inp.replays ∧ L + 1 ≥ 20
  · rw [if_pos h, if_pos h]
  · rw [if_neg h, if_neg h, if_neg fun h' => h ⟨h'.1, by omega⟩]

/-- The read-ahead of a layer that was not read ahead at the tail of the one before. -/
theorem front_read_spec :
    Spec (Between inp L)
      (do
        let s ← get
        whenever (inp.reads_ahead (inp.rows L) ∧ s.ahead_layer ≠ some L) (read_ahead inp L))
      (inp.reads_ahead (inp.rows L) → inp.AheadRuns L) (fun _ => Ready inp L) Clean := by
  apply Spec.get_bind
  rintro s (hs | ⟨hreads, hruns, hs⟩)
  · by_cases hreads : inp.reads_ahead (inp.rows L)
    · rw [whenever, if_pos ⟨hreads, by rw [hs.layer]; simp⟩]
      refine read_ahead_spec.conseq (by rintro s' rfl; exact hs) ?_
        (fun _ s' _ h => .of_read_ahead h hreads) fun _ _ h => h
      exact ⟨fun h _ => h, fun h => h hreads⟩
    · rw [whenever, if_neg fun h => hreads h.1]
      refine Spec.pure (fun h => absurd h hreads) ?_
      rintro s' rfl
      exact .of_idle hs hreads
  · rw [whenever, if_neg fun h => h.2 hs.layer]
    refine Spec.pure (fun _ => hruns) ?_
    rintro s' rfl
    exact .of_read_ahead hs hreads

theorem tail_read_spec :
    Spec Idle
      (whenever (inp.pcfg.read_ahead_tail = true ∧ L + 1 < inp.num_hidden_layers ∧
        inp.reads_ahead (inp.rows (L + 1))) (read_ahead inp (L + 1)))
      (inp.TailReads L → inp.AheadRuns (L + 1)) (fun _ => Between inp (L + 1)) Clean := by
  refine Spec.whenever (fun htail => ?_) fun s _ h => .inl h
  exact read_ahead_spec.conseq (fun _ h => h) Iff.rfl
    (fun _ s hruns h => .inr ⟨htail.2.2, hruns, h⟩) fun _ _ h => h

/-- The steps of a layer, one after the other. -/
theorem run_layer_eq : run_layer inp L = (do
      ofExcept (inp.op (.front L))
      (do
        let s ← get
        whenever (inp.reads_ahead (inp.rows L) ∧ s.ahead_layer ≠ some L) (read_ahead inp L))
      ofExcept (inp.op (.attn L))
      run_moe inp L
      whenever (inp.pcfg.read_ahead_tail = true ∧ L + 1 < inp.num_hidden_layers ∧
        inp.reads_ahead (inp.rows (L + 1))) (read_ahead inp (L + 1))
      ofExcept (inp.op (.post L))) := by
  rw [← tail_rows]
  rfl

theorem run_layer_spec :
    Spec (Between inp L) (run_layer inp L) (inp.LayerRuns L) (fun _ => Between inp (L + 1))
      (Left (inp.LayerStrands L)) := by
  have hpost : Spec (Between inp (L + 1)) (ofExcept (inp.op (.post L)) : Prefill Unit)
      ((inp.op (.post L)).isOk = true) (fun _ => Between inp (L + 1)) Clean :=
    answer_spec fun s h => h.clean
  have hfront : Spec (Between inp L) (ofExcept (inp.op (.front L)) : Prefill Unit)
      ((inp.op (.front L)).isOk = true) (fun _ => Between inp L) Clean :=
    answer_spec fun s h => h.clean
  have hattn : Spec (Ready inp L) (ofExcept (inp.op (.attn L)) : Prefill Unit)
      ((inp.op (.attn L)).isOk = true) (fun _ => Ready inp L) Clean :=
    answer_spec fun s h => h.clean
  have hlayer := clean_bind hfront fun _ _ => clean_bind front_read_spec fun _ _ =>
    clean_bind hattn fun _ _ => bind_clean run_moe_spec
      (fun h h' => not_run_of_strands h'.2.2.2 h.2.2.2) fun _ _ =>
        tail_read_spec.bind fun _ _ => hpost
  rw [run_layer_eq]
  refine hlayer.conseq (fun _ h => h) ?_ (fun _ _ _ h => h) ?_
  · simp only [Input.LayerRuns, Input.LayerStarts, Input.TailReads, and_assoc]
  · intro s _ h
    refine h.congr ?_
    simp only [Input.LayerStrands, Input.LayerStarts, and_assoc]

/-! ### The run -/

/-- Some layer is reached and strands reads. -/
def SomeLayerStrands (inp : Input) : Prop :=
  ∃ L < inp.num_hidden_layers, (∀ k < L, inp.LayerRuns k) ∧ inp.LayerStrands L

theorem not_runs_of_strands (h : inp.LayerStrands L) : ¬ inp.LayerRuns L :=
  fun hruns => not_run_of_strands h.2 hruns.2.1

/-- The layer a prefill fails in is the only one that can strand reads. -/
theorem strands_at (hlt : L < inp.num_hidden_layers) (hbefore : ∀ k < L, inp.LayerRuns k)
    (hnot : ¬ inp.LayerRuns L) : inp.LayerStrands L ↔ SomeLayerStrands inp := by
  constructor
  · exact fun h => ⟨L, hlt, hbefore, h⟩
  · rintro ⟨M, _, hM, hstrands⟩
    rcases Nat.lt_trichotomy M L with h | h | h
    · exact absurd (hbefore M h) (not_runs_of_strands hstrands)
    · rw [← h]
      exact hstrands
    · exact absurd (hM L h) hnot

theorem layers_spec :
    Spec (Between inp 0)
      ((List.range inp.num_hidden_layers).forM fun L =>
        EStateM.adaptExcept (layer_error L) (run_layer inp L))
      (∀ L ∈ List.range inp.num_hidden_layers, inp.LayerRuns L)
      (fun _ => Clean) (Left (SomeLayerStrands inp)) := by
  refine (Spec.forM _ _ (fun L => inp.LayerRuns L) (fun pre s => Between inp pre.length s)
    (fun _ L s => Left (inp.LayerStrands L) s) ?_).conseq (fun _ h => h) Iff.rfl
    (fun _ _ _ h => h.clean) ?_
  · intro pre L post hl
    have hL : L = pre.length := by
      have hget : (List.range inp.num_hidden_layers)[pre.length]? = some L := by
        rw [hl]
        simp
      rw [List.getElem?_eq_some_iff] at hget
      obtain ⟨_, hget⟩ := hget
      rw [← hget, List.getElem_range]
    subst hL
    rw [List.length_append]
    exact Spec.adaptExcept run_layer_spec
  · rintro s _ ⟨pre, L, post, hl, hgood, hbad, h⟩
    have hmem : ∀ k, k ∈ pre ++ L :: post ↔ k < inp.num_hidden_layers := by
      intro k
      rw [← hl, List.mem_range]
    have hsorted : (pre ++ L :: post).Pairwise (· < ·) := hl ▸ List.pairwise_lt_range
    refine h.congr (strands_at ((hmem L).mp (List.mem_append_right _ List.mem_cons_self)) ?_ hbad)
    -- the layers below are the ones in front of it in the range
    intro k hk
    have hlt := (hmem L).mp (List.mem_append_right _ List.mem_cons_self)
    rcases List.mem_append.mp ((hmem k).mpr (hk.trans hlt)) with hk' | hk'
    · exact hgood k hk'
    · rcases List.mem_cons.mp hk' with rfl | hk'
      · exact absurd hk (Nat.lt_irrefl _)
      · have hrest := (List.pairwise_append.mp hsorted).2.1
        exact absurd ((List.pairwise_cons.mp hrest).1 k hk') (Nat.lt_asymm hk)

theorem Inv.init : Inv {} where
  joined_lt := fun _ hn => absurd hn List.not_mem_nil
  ids_lt := fun _ _ hf => absurd hf List.not_mem_nil
  ids_once := fun _ _ _ hf => absurd hf List.not_mem_nil
  cookies_lt := fun _ he => absurd rfl he
  cookies_once := fun _ _ he => absurd rfl he
  settled := fun _ => rfl

theorem Idle.init : Idle {} where
  inv := .init
  tracked := fun n hn => absurd hn (Nat.not_lt_zero n)
  layer := rfl
  range := rfl

theorem run_spec (inp : Input) :
    Spec (fun s => s = {}) (run inp)
      ((inp.op .embed).isOk = true ∧ (∀ L ∈ List.range inp.num_hidden_layers, inp.LayerRuns L) ∧
        (inp.op .head).isOk = true)
      (fun _ => Clean) (Left ((inp.op .embed).isOk = true ∧ SomeLayerStrands inp)) := by
  have hembed : Spec (fun s => s = {}) (ofExcept (inp.op .embed) : Prefill Unit)
      ((inp.op .embed).isOk = true) (fun _ => Between inp 0) Clean := by
    refine (answer_spec (P := Between inp 0) fun s h => h.clean).conseq ?_ Iff.rfl
      (fun _ _ _ h => h) fun _ _ h => h
    rintro s rfl
    exact .inl .init
  have hhead : Spec Clean (ofExcept (inp.op .head) : Prefill Unit)
      ((inp.op .head).isOk = true) (fun _ => Clean) Clean :=
    answer_spec fun s h => h
  refine clean_bind hembed fun _ _ => bind_clean layers_spec (fun hruns => ?_) fun _ _ => hhead
  rintro ⟨L, hlt, _, hstrands⟩
  exact not_runs_of_strands hstrands (hruns L (List.mem_range.mpr hlt))

/-! ### After the run -/

/-- The open reservations are settled one after the other. -/
def settle_all (s : State) (cs : List Nat) : State := cs.foldl (fun s c => s.settle c false) s

theorem settle_all_frame (s : State) (cs : List Nat) : ∃ hs st fr,
    settle_all s cs = { s with held := hs, settled := st, freed := fr } := by
  induction cs generalizing s with
  | nil => exact ⟨_, _, _, rfl⟩
  | cons c cs ih =>
    obtain ⟨hs, st, fr, heq⟩ := settle_frame s c false
    obtain ⟨hs', st', fr', heq'⟩ := ih (s.settle c false)
    refine ⟨hs', st', fr', ?_⟩
    show settle_all (s.settle c false) cs = _
    rw [heq', heq]

theorem length_settle_all (s : State) (cs : List Nat) :
    (settle_all s cs).held.length = s.held.length := by
  induction cs generalizing s with
  | nil => rfl
  | cons c cs ih =>
    show (settle_all (s.settle c false) cs).held.length = _
    rw [ih]
    rcases settle_cases s c false with ⟨heq, _⟩ | ⟨a, _, heq⟩
    · rw [heq]
    · rw [heq]
      exact List.length_set

theorem Inv.settle_all (h : Inv s) (cs : List Nat) : Inv (settle_all s cs) := by
  induction cs generalizing s with
  | nil => exact h
  | cons c cs ih => exact ih (h.settle c false)

/-- What is open after a settlement was open before, and is another cookie's. -/
theorem open_of_settle {c c' : Nat} {ok : Bool} {a : StreamAdmit}
    (h : (s.settle c ok).held[c']? = some ⟨a, true⟩) : s.held[c']? = some ⟨a, true⟩ ∧ c' ≠ c := by
  rcases settle_cases s c ok with ⟨heq, hclosed⟩ | ⟨b, hheld, heq⟩
  · rw [heq] at h
    refine ⟨h, ?_⟩
    rintro rfl
    cases hclosed _ h
  · rw [heq] at h
    have hc := (List.getElem?_eq_some_iff.mp hheld).1
    by_cases hcc : c = c'
    · subst hcc
      rw [List.getElem?_set_self hc] at h
      cases h
    · rw [List.getElem?_set_ne hcc] at h
      exact ⟨h, Ne.symm hcc⟩

theorem open_of_settle_all {cs : List Nat} {c : Nat} {a : StreamAdmit}
    (h : (settle_all s cs).held[c]? = some ⟨a, true⟩) : c ∉ cs := by
  suffices hboth : s.held[c]? = some ⟨a, true⟩ ∧ c ∉ cs from hboth.2
  induction cs generalizing s with
  | nil => exact ⟨h, List.not_mem_nil⟩
  | cons c' cs ih =>
    obtain ⟨hheld, hnot⟩ := ih h
    obtain ⟨hheld, hne⟩ := open_of_settle hheld
    refine ⟨hheld, fun hmem => ?_⟩
    rcases List.mem_cons.mp hmem with hmem | hmem
    · exact hne hmem
    · exact hnot hmem

/-- A slot that was given back stays so, and an open Fill is given back. -/
theorem freed_settle {c slot : Nat} (h : slot ∈ s.freed ∨
      ∃ a : StreamAdmit, s.held[c]? = some ⟨a, true⟩ ∧ a.kind = .Fill ∧ a.slot = slot) :
    slot ∈ (s.settle c false).freed := by
  rcases settle_cases s c false with ⟨heq, hclosed⟩ | ⟨b, hheld, heq⟩
  · rw [heq]
    rcases h with h | ⟨a, hheld, _⟩
    · exact h
    · cases hclosed _ hheld
  · rw [heq]
    show slot ∈ if b.kind = .Fill ∧ false = false then s.freed ++ [b.slot] else s.freed
    rcases h with h | ⟨a, ha, hkind, hslot⟩
    · split
      · exact List.mem_append_left _ h
      · exact h
    · rw [hheld] at ha
      cases ha
      rw [if_pos ⟨hkind, rfl⟩, hslot]
      exact List.mem_append_right _ (List.mem_singleton_self _)

theorem freed_settle_all {cs : List Nat} {c slot : Nat} (h : slot ∈ s.freed ∨ c ∈ cs ∧
      ∃ a : StreamAdmit, s.held[c]? = some ⟨a, true⟩ ∧ a.kind = .Fill ∧ a.slot = slot) :
    slot ∈ (settle_all s cs).freed := by
  induction cs generalizing s with
  | nil =>
    rcases h with h | ⟨hmem, _⟩
    · exact h
    · cases hmem
  | cons c' cs ih =>
    apply ih (s := s.settle c' false)
    by_cases hfreed : slot ∈ (s.settle c' false).freed
    · exact .inl hfreed
    · -- not given back yet, so the reservation is another one and stays open
      rcases h with h | ⟨hmem, a, ha, hfill⟩
      · exact absurd (freed_settle (.inl h)) hfreed
      · have hne : c' ≠ c := by
          rintro rfl
          exact hfreed (freed_settle (.inr ⟨a, ha, hfill⟩))
        refine .inr ⟨(List.mem_cons.mp hmem).resolve_left (Ne.symm hne), a, ?_, hfill⟩
        rcases settle_cases s c' false with ⟨heq, _⟩ | ⟨b, _, heq⟩
        · rw [heq]
          exact ha
        · rw [heq]
          show (s.held.set c' ⟨b, false⟩)[c]? = _
          rw [List.getElem?_set_ne hne, ha]

/-! ### What is left behind -/

/-- Read `n` may still be in flight: no one waited for it, and the drives, which have been
    as slow as `late` says, are not done with it. -/
def State.in_flight (s : State) (late : Nat → Bool) (n : Nat) : Prop :=
  n < s.reads.length ∧ n ∉ s.joined ∧ late n = true

/-- The memory a read lands in is no longer the prefill's. -/
def State.gone (s : State) : Dst → Prop
  | .transit _ => s.transit_freed = true
  | .cache slot => slot ∈ s.freed

/-- A prefill leaves nothing behind, however slow the drives are: no read into memory that
    is gone, and no reservation that was not settled exactly once. -/
structure LeavesNothing (inp : Input) : Prop where
  reads : ∀ late n d, (gpu_prefill inp).2.in_flight late n →
    (gpu_prefill inp).2.reads[n]? = some d → ¬ (gpu_prefill inp).2.gone d
  settled : ∀ c < (gpu_prefill inp).2.held.length, (gpu_prefill inp).2.settled.count c = 1

theorem settled_once (h : Inv s) {c : Nat} (hc : c < s.settle_open.destroy.held.length) :
    s.settle_open.destroy.settled.count c = 1 := by
  have hinv : Inv s.settle_open := h.settle_all _
  have hlen : c < s.held.length := by
    rw [← length_settle_all s (List.range s.held.length)]
    exact hc
  obtain ⟨⟨a, is_open⟩, hheld⟩ : ∃ hd, s.settle_open.held[c]? = some hd :=
    ⟨_, List.getElem?_eq_getElem hc⟩
  have hclosed : is_open = false := by
    cases is_open with
    | false => rfl
    | true => exact absurd (List.mem_range.mpr hlen) (open_of_settle_all hheld)
  show s.settle_open.settled.count c = 1
  rw [hinv.settled c, hheld, Option.map_some, hclosed, if_pos rfl]

/-- After a clean failure, as after a success, every read has been waited for. -/
theorem all_joined (h : Clean s) {n : Nat} (hn : n < s.settle_open.destroy.reads.length) :
    n ∈ s.settle_open.destroy.joined := by
  obtain ⟨hs, st, fr, heq⟩ := settle_all_frame s (List.range s.held.length)
  have hopen : s.settle_open = { s with held := hs, settled := st, freed := fr } := heq
  rw [hopen] at hn ⊢
  by_contra hnot
  have hidle := h.wait_ahead.tracked n hn hnot
  rcases hidle with ⟨f, hf, _⟩ | ⟨_, hfalse, _⟩
  · obtain ⟨slot, hslot, _⟩ := mem_ahead_futs.mp hf
    exact absurd hslot (Nat.not_lt_zero _)
  · exact hfalse

/-- A batch's reads that no one waits for are in flight into memory that is gone: `destroy`
    frees the transit, and the slot of an open Fill goes back to the free list. -/
theorem left_behind (h : Stranded s) : ∃ n d, s.settle_open.destroy.in_flight (fun _ => true) n ∧
    s.settle_open.destroy.reads[n]? = some d ∧ s.settle_open.destroy.gone d := by
  obtain ⟨hinv, i, es, hfuts, hpending⟩ := h
  obtain ⟨f, hf⟩ := List.exists_mem_of_ne_nil _ hfuts
  obtain ⟨_, hjoined, d, hd, hopen⟩ := hpending f hf
  obtain ⟨hs, st, fr, heq⟩ := settle_all_frame s (List.range s.held.length)
  have hsettled : s.settle_open = { s with held := hs, settled := st, freed := fr } := heq
  have hfreed : ∀ slot, d = .cache slot → slot ∈ s.settle_open.freed := by
    intro slot hslot
    obtain ⟨_, a, hheld, hfill⟩ := hopen slot hslot
    have hlt := (List.getElem?_eq_some_iff.mp hheld).1
    exact freed_settle_all (.inr ⟨List.mem_range.mpr hlt, a, hheld, hfill⟩)
  rw [hsettled] at hfreed ⊢
  refine ⟨f.id, d, ⟨hinv.ids_lt _ f hf, ?_, rfl⟩, hd, ?_⟩
  · intro hmem
    rcases List.mem_append.mp hmem with hmem | hmem
    · exact hjoined hmem
    · -- the futures `destroy` waits for are those of other reads
      obtain ⟨f', hf', hid⟩ := List.mem_map.mp hmem
      obtain ⟨slot, _, hf'⟩ := mem_ahead_futs.mp hf'
      cases hinv.ids_once (.ahead slot) (.batch i) f' hf' f hf hid
  · cases d with
    | transit slot => rfl
    | cache slot => exact hfreed slot rfl

/-- The state in which `run` ends. -/
def run_end (inp : Input) : State :=
  match run inp {} with
  | .ok _ s => s
  | .error _ s => s

theorem run_end_left : Left ((inp.op .embed).isOk = true ∧ SomeLayerStrands inp) (run_end inp) := by
  have hrun := run_spec inp {} rfl
  rw [run_end]
  cases hres : run inp {} with
  | ok a s =>
    rw [hres] at hrun
    refine .clean ?_ hrun.2
    rintro ⟨_, L, hlt, _, hstrands⟩
    exact not_runs_of_strands hstrands (hrun.1.2.1 L (List.mem_range.mpr hlt))
  | error e s =>
    rw [hres] at hrun
    exact hrun.2

/-- What is left of a prefill that gets as far as `run`. -/
theorem gpu_prefill_state (hprompt : inp.prompt_size ≠ 0) (hcreate : (inp.op .create).isOk = true) :
    (gpu_prefill inp).2 = (run_end inp).settle_open.destroy := by
  rw [gpu_prefill, if_neg hprompt, run_end]
  cases hop : inp.op .create with
  | error e =>
    rw [hop] at hcreate
    cases hcreate
  | ok _ =>
    cases hres : run inp {} with
    | ok a s => rfl
    | error e s => rfl

/-- A prefill that does not get there has no read out. -/
theorem gpu_prefill_early (h : ¬ (inp.prompt_size ≠ 0 ∧ (inp.op .create).isOk = true)) :
    (gpu_prefill inp).2.reads = [] ∧ (gpu_prefill inp).2.held = [] := by
  rw [gpu_prefill]
  by_cases hprompt : inp.prompt_size = 0
  · rw [if_pos hprompt]
    exact ⟨rfl, rfl⟩
  · rw [if_neg hprompt]
    cases hop : inp.op .create with
    | error e => exact ⟨rfl, rfl⟩
    | ok _ =>
      rw [hop] at h
      exact absurd ⟨hprompt, rfl⟩ h

/-- A failed prefill leaves nothing behind unless it stops while the reads of a batch are
    out: `destroy` does not wait for those. -/
theorem gpu_prefill_leaves_nothing_iff (inp : Input) :
    LeavesNothing inp ↔ ¬ inp.StrandsReads := by
  by_cases hstart : inp.prompt_size ≠ 0 ∧ (inp.op .create).isOk = true
  · obtain ⟨hprompt, hcreate⟩ := hstart
    have hstate := gpu_prefill_state hprompt hcreate
    have hstrands : ((inp.op .embed).isOk = true ∧ SomeLayerStrands inp) ↔ inp.StrandsReads :=
      ⟨fun h => ⟨hprompt, hcreate, h⟩, fun h => h.2.2⟩
    have hleft := run_end_left.congr hstrands
    constructor
    · intro hnothing hstranded
      obtain ⟨n, d, hflight, hd, hgone⟩ := left_behind (hleft.1 hstranded)
      rw [← hstate] at hflight hd hgone
      exact hnothing.reads _ n d hflight hd hgone
    · intro hnot
      have hclean := hleft.2 hnot
      refine ⟨fun late n d hflight _ _ => ?_, fun c hc => ?_⟩
      · rw [hstate] at hflight
        exact hflight.2.1 (all_joined hclean hflight.1)
      · rw [hstate] at hc ⊢
        exact settled_once hclean.1 hc
  · obtain ⟨hreads, hheld⟩ := gpu_prefill_early hstart
    refine ⟨fun _ h => hstart ⟨h.1, h.2.1⟩, fun _ => ⟨fun late n d hflight _ _ => ?_, fun c hc => ?_⟩⟩
    · have hlt := hflight.1
      rw [hreads] at hlt
      exact Nat.not_lt_zero n hlt
    · rw [hheld] at hc
      exact absurd hc (Nat.not_lt_zero c)

/-! ### Reservations are settled in any case -/

/-- Whatever fails, each reservation is settled exactly once. -/
theorem gpu_prefill_settles_once (inp : Input) {c : Nat} (hc : c < (gpu_prefill inp).2.held.length) :
    (gpu_prefill inp).2.settled.count c = 1 := by
  by_cases hstart : inp.prompt_size ≠ 0 ∧ (inp.op .create).isOk = true
  · rw [gpu_prefill_state hstart.1 hstart.2] at hc ⊢
    have hinv : Inv (run_end inp) := by
      by_cases hstrands : (inp.op .embed).isOk = true ∧ SomeLayerStrands inp
      · exact (run_end_left.1 hstrands).1
      · exact (run_end_left.2 hstrands).1
    exact settled_once hinv hc
  · rw [(gpu_prefill_early hstart).2] at hc
    exact absurd hc (Nat.not_lt_zero c)

/-! ### A prefill that leaves a read behind -/

/-- Eleven rows routed to 65 experts, one more than a batch takes: the cache gives the last
    one slot 7, and the dispatch of the first batch fails. -/
def lost_device : Input where
  prompt_size := 11
  num_hidden_layers := 40
  n_routed_experts := 256
  pcfg := { replay := 11, transit_slots_pos := Nat.succ_pos 63 }
  ids := fun _ => List.range 65 ++ [0]
  require_expert := fun _ e =>
    .ok ⟨[⟨0, 4096 * e, 4096, 0⟩], 1, fun _ => 0, fun _ => 0, fun _ => Nat.one_pos⟩
  require_file := fun _ => .ok ()
  submit_future := fun _ => .ok ()
  result := fun _ => .ok ()
  resident := fun _ _ => false
  admit_streamed := fun _ e => .ok (if e = 64 then { kind := .Fill, slot := 7 } else {})
  ahead_segments := fun _ => 2
  op := fun stage =>
    if stage = .compute 0 0 then fail .Internal "device lost" else .ok ()

theorem gpu_prefill_settles_once_lost : (gpu_prefill lost_device).2.settled.count 0 = 1 :=
  gpu_prefill_settles_once lost_device (by decide +kernel)

/-- The read of the last expert is out when the first batch fails, and slot 7 is given back. -/
theorem lost_device_leaves_a_read : ¬ LeavesNothing lost_device := by
  intro h
  have hrun : (gpu_prefill lost_device).2.reads[64]? = some (.cache 7) ∧
      64 ∉ (gpu_prefill lost_device).2.joined ∧ (gpu_prefill lost_device).2.freed = [7] := by
    decide +kernel
  obtain ⟨hread, hjoined, hfreed⟩ := hrun
  have hgone : (gpu_prefill lost_device).2.gone (.cache 7) := by
    show 7 ∈ (gpu_prefill lost_device).2.freed
    rw [hfreed]
    exact List.mem_singleton_self 7
  have hlt := (List.getElem?_eq_some_iff.mp hread).1
  exact h.reads (fun _ => true) 64 _ ⟨hlt, hjoined, rfl⟩ hread hgone

end CachedMoe.Gpu
