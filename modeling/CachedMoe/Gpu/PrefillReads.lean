import CachedMoe.Gpu.Batches

/-! # What a prefill leaves in flight

    Every read of a prefill is accounted for: it has been waited for, or its future is one
    of the read-ahead's, or it belongs to the batch that is being issued or to the one
    before it, which has not been computed. `destroy` waits for the read-ahead's futures;
    for those of the batches it does not. From this follows exactly when a prefill that
    fails leaves a read behind. -/

namespace CachedMoe.Gpu

open CachedMoe CachedMoe.Store Attempt

variable {inp : Input} {L : Nat} {ahead : Nat → Option Nat} {s s' : State}

/-! ### The books of a prefill -/

/-- A future is for a read that went out, each read has one owner, and each reservation
    one expert; a reservation is settled once it is closed, and then once. -/
structure Inv (s : State) : Prop where
  joined_lt : ∀ n ∈ s.joined, n < s.reads.length
  ids_lt : ∀ k, ∀ f ∈ s.futs k, f.id < s.reads.length
  ids_once : ∀ k k', ∀ f ∈ s.futs k, ∀ f' ∈ s.futs k', f.id = f'.id → k = k'
  cookies_lt : ∀ e, (s.dest e).kind ≠ .Drop → (s.dest e).cookie < s.held.length
  cookies_once : ∀ e e', (s.dest e).kind ≠ .Drop → (s.dest e').kind ≠ .Drop →
    (s.dest e).cookie = (s.dest e').cookie → e = e'
  settled : ∀ c, s.settled.count c = (if (s.held[c]?.map Held.is_open) = some false then 1 else 0)

/-- Every read that was not waited for has its future among the read-ahead's or those of
    the batches `B`. -/
def Tracked (s : State) (B : Nat → Prop) : Prop :=
  ∀ n < s.reads.length, n ∉ s.joined →
    (∃ f ∈ s.ahead_futs, f.id = n) ∨ ∃ i, B i ∧ ∃ f ∈ s.futs (.batch i), f.id = n

/-- The expert's reservation is open, and a Fill of `slot`. -/
def OpenFill (s : State) (e slot : Nat) : Prop :=
  (s.dest e).kind ≠ .Drop ∧
    ∃ a : StreamAdmit, s.held[(s.dest e).cookie]? = some ⟨a, true⟩ ∧ a.kind = .Fill ∧ a.slot = slot

/-- Batch `i` has reserved for the experts `es` and has reads out whose future no one has
    waited for; those into a cache slot are of an open reservation. -/
def Pending (s : State) (i : Nat) (es : List Nat) : Prop :=
  ∀ f ∈ s.futs (.batch i), f.key.expert ∈ es ∧ f.id ∉ s.joined ∧
    ∃ d, s.reads[f.id]? = some d ∧ ∀ slot, d = .cache slot → OpenFill s f.key.expert slot

theorem mem_ahead_futs {f : Fut} :
    f ∈ s.ahead_futs ↔ ∃ slot < s.ahead_range, f ∈ s.futs (.ahead slot) := by
  simp [State.ahead_futs]

theorem Tracked.mono {B B' : Nat → Prop} (h : Tracked s B) (hB : ∀ i, B i → B' i) :
    Tracked s B' := by
  intro n hn hjoined
  rcases h n hn hjoined with h | ⟨i, hi, h⟩
  · exact .inl h
  · exact .inr ⟨i, hB i hi, h⟩

/-- A batch without futures tracks nothing. -/
theorem Tracked.erase {B B' : Nat → Prop} (h : Tracked s B)
    (hB : ∀ i, B i → B' i ∨ s.futs (.batch i) = []) : Tracked s B' := by
  intro n hn hjoined
  rcases h n hn hjoined with h | ⟨i, hi, f, hf, hid⟩
  · exact .inl h
  · rcases hB i hi with hi | hi
    · exact .inr ⟨i, hi, f, hf, hid⟩
    · rw [hi] at hf
      cases hf

/-! ### A read goes out -/

section Push

variable {key : ReadKey} {dst : Dst} {k : Futs}

theorem mem_push_futs {k' : Futs} {f : Fut} :
    f ∈ (s.push key dst k).futs k' ↔
      f ∈ s.futs k' ∨ (k' = k ∧ f = ⟨s.reads.length, key⟩) := by
  by_cases hk : k' = k
  · subst hk
    simp [State.push]
  · simp [State.push, hk]

theorem push_futs_of_ne {k' : Futs} (hk : k' ≠ k) : (s.push key dst k).futs k' = s.futs k' :=
  Function.update_of_ne hk _ _

theorem push_futs_self : (s.push key dst k).futs k = s.futs k ++ [⟨s.reads.length, key⟩] :=
  Function.update_self _ _ _

theorem length_push : (s.push key dst k).reads.length = s.reads.length + 1 := by
  simp [State.push]

theorem Inv.push (h : Inv s) : Inv (s.push key dst k) where
  joined_lt := by
    intro n hn
    rw [length_push]
    exact Nat.lt_succ_of_lt (h.joined_lt n hn)
  ids_lt := by
    intro k' f hf
    rw [length_push]
    rcases mem_push_futs.mp hf with hf | ⟨_, rfl⟩
    · exact Nat.lt_succ_of_lt (h.ids_lt k' f hf)
    · exact Nat.lt_succ_self _
  ids_once := by
    intro k₁ k₂ f hf f' hf' hid
    -- the new read's number is larger than that of every read before
    rcases mem_push_futs.mp hf with hf | ⟨hk, rfl⟩
    · rcases mem_push_futs.mp hf' with hf' | ⟨_, rfl⟩
      · exact h.ids_once k₁ k₂ f hf f' hf' hid
      · exact absurd hid (Nat.ne_of_lt (h.ids_lt k₁ f hf))
    · rcases mem_push_futs.mp hf' with hf' | ⟨hk', rfl⟩
      · exact absurd hid.symm (Nat.ne_of_lt (h.ids_lt k₂ f' hf'))
      · rw [hk, hk']
  cookies_lt := h.cookies_lt
  cookies_once := h.cookies_once
  settled := h.settled

theorem Tracked.push_batch {B : Nat → Prop} {i : Nat} (h : Tracked s B) (hi : B i) :
    Tracked (s.push key dst (.batch i)) B := by
  intro n hn hjoined
  rw [length_push] at hn
  rcases Nat.lt_succ_iff_lt_or_eq.mp hn with hlt | heq
  · rcases h n hlt hjoined with ⟨f, hf, hid⟩ | ⟨j, hj, f, hf, hid⟩
    · left
      obtain ⟨slot, hslot, hf⟩ := mem_ahead_futs.mp hf
      exact ⟨f, mem_ahead_futs.mpr ⟨slot, hslot, mem_push_futs.mpr (.inl hf)⟩, hid⟩
    · exact .inr ⟨j, hj, f, mem_push_futs.mpr (.inl hf), hid⟩
  · exact .inr ⟨i, hi, _, mem_push_futs.mpr (.inr ⟨rfl, rfl⟩), heq.symm⟩

theorem Tracked.push_ahead {B : Nat → Prop} {slot : Nat} (h : Tracked s B)
    (hslot : slot < s.ahead_range) : Tracked (s.push key dst (.ahead slot)) B := by
  intro n hn hjoined
  rw [length_push] at hn
  rcases Nat.lt_succ_iff_lt_or_eq.mp hn with hlt | heq
  · rcases h n hlt hjoined with ⟨f, hf, hid⟩ | ⟨j, hj, f, hf, hid⟩
    · left
      obtain ⟨slot', hslot', hf⟩ := mem_ahead_futs.mp hf
      exact ⟨f, mem_ahead_futs.mpr ⟨slot', hslot', mem_push_futs.mpr (.inl hf)⟩, hid⟩
    · exact .inr ⟨j, hj, f, mem_push_futs.mpr (.inl hf), hid⟩
  · exact .inl ⟨_, mem_ahead_futs.mpr ⟨slot, hslot, mem_push_futs.mpr (.inr ⟨rfl, rfl⟩)⟩,
      heq.symm⟩

theorem reads_push {n : Nat} {d : Dst} (h : s.reads[n]? = some d) :
    (s.push key dst k).reads[n]? = some d := by
  have hn : n < s.reads.length := (List.getElem?_eq_some_iff.mp h).1
  show (s.reads ++ [dst])[n]? = some d
  rw [List.getElem?_append_left hn, h]

/-- The batch that issues the read. -/
theorem Pending.push_self {i : Nat} {es : List Nat} (h : Pending s i es) (hinv : Inv s)
    (he : key.expert ∈ es) (hdst : ∀ slot, dst = .cache slot → OpenFill s key.expert slot) :
    Pending (s.push key dst (.batch i)) i es := by
  intro f hf
  rcases mem_push_futs.mp hf with hf | ⟨_, rfl⟩
  · obtain ⟨hmem, hjoined, d, hd, hopen⟩ := h f hf
    exact ⟨hmem, hjoined, d, reads_push hd, hopen⟩
  · refine ⟨he, fun hjoined => Nat.lt_irrefl _ (hinv.joined_lt _ hjoined), dst, ?_, hdst⟩
    exact List.getElem?_concat_length

theorem Pending.push_other {i : Nat} {es : List Nat} (h : Pending s i es) (hk : .batch i ≠ k) :
    Pending (s.push key dst k) i es := by
  intro f hf
  rw [push_futs_of_ne hk] at hf
  obtain ⟨hmem, hjoined, d, hd, hopen⟩ := h f hf
  exact ⟨hmem, hjoined, d, reads_push hd, hopen⟩

end Push

/-! ### Futures are waited for -/

section Wait

variable {k : Futs} {fs : List Fut}

theorem Inv.wait (h : Inv s) (hfs : ∀ f ∈ fs, ∃ k, f ∈ s.futs k) : Inv (s.wait fs) where
  joined_lt := by
    intro n hn
    rcases List.mem_append.mp hn with hn | hn
    · exact h.joined_lt n hn
    · obtain ⟨f, hf, rfl⟩ := List.mem_map.mp hn
      obtain ⟨k, hk⟩ := hfs f hf
      exact h.ids_lt k f hk
  ids_lt := h.ids_lt
  ids_once := h.ids_once
  cookies_lt := h.cookies_lt
  cookies_once := h.cookies_once
  settled := h.settled

theorem Tracked.wait {B : Nat → Prop} (h : Tracked s B) : Tracked (s.wait fs) B :=
  fun n hn hjoined => h n hn fun hmem => hjoined (List.mem_append_left _ hmem)

theorem Tracked.wait_batch {B B' : Nat → Prop} {i : Nat} (h : Tracked s B)
    (hB : ∀ j, B j → B' j ∨ j = i) : Tracked (s.wait (s.futs (.batch i))) B' := by
  intro n hn hjoined
  rcases h n hn fun hmem => hjoined (List.mem_append_left _ hmem) with h | ⟨j, hj, f, hf, hid⟩
  · exact .inl h
  · rcases hB j hj with hj | rfl
    · exact .inr ⟨j, hj, f, hf, hid⟩
    · exact absurd (List.mem_append_right _ (List.mem_map.mpr ⟨f, hf, hid⟩)) hjoined

/-- Waiting for other owners' futures leaves a batch's alone. -/
theorem Pending.wait {i : Nat} {es : List Nat} (h : Pending s i es) (hinv : Inv s)
    (hfs : ∀ f ∈ fs, ∃ k, k ≠ .batch i ∧ f ∈ s.futs k) : Pending (s.wait fs) i es := by
  intro f hf
  obtain ⟨hmem, hjoined, d, hd, hopen⟩ := h f hf
  refine ⟨hmem, fun hmem' => ?_, d, hd, hopen⟩
  rcases List.mem_append.mp hmem' with hmem' | hmem'
  · exact hjoined hmem'
  · obtain ⟨f', hf', hid⟩ := List.mem_map.mp hmem'
    obtain ⟨k, hk, hf'⟩ := hfs f' hf'
    exact hk (hinv.ids_once k _ f' hf' f hf hid)

end Wait

/-! ### Blind reads land -/

section Land

variable {slots : List Nat}

/-- What `land` changes: the joined reads, all of them the read-ahead's, and the flags of
    the slots it was called for. -/
def LandsOnly (slots : List Nat) (s s' : State) : Prop :=
  ∃ fs l, s' = { s.wait fs with landed := l } ∧
    (∀ f ∈ fs, ∃ slot, f ∈ s.futs (.ahead slot)) ∧ ∀ slot, slot ∉ slots → l slot = s.landed slot

theorem land_only (inp : Input) (s : State) (slot : Nat) : LandsOnly [slot] s (s.land inp slot).2 := by
  rw [State.land]
  split
  · refine ⟨s.futs (.ahead slot), _, rfl, fun f hf => ⟨slot, hf⟩, fun slot' hslot' => ?_⟩
    exact Function.update_of_ne (fun h => hslot' (List.mem_singleton.mpr h)) _ _
  · refine ⟨[], s.landed, ?_, fun f hf => absurd hf List.not_mem_nil, fun _ _ => rfl⟩
    simp [State.wait]

theorem land_all_only : LandsOnly slots s (s.land_all inp slots).2 := by
  induction slots generalizing s with
  | nil =>
    refine ⟨[], s.landed, ?_, fun f hf => absurd hf List.not_mem_nil, fun _ _ => rfl⟩
    simp [State.wait, State.land_all]
  | cons slot slots ih =>
    obtain ⟨fs, l, heq, hfs, hl⟩ := land_only inp s slot
    obtain ⟨fs', l', heq', hfs', hl'⟩ := ih (s := (s.land inp slot).2)
    rw [heq] at heq' hfs' hl'
    refine ⟨fs ++ fs', l', ?_, ?_, ?_⟩
    · rw [State.land_all, heq, heq']
      simp [State.wait]
    · intro f hf
      rcases List.mem_append.mp hf with hf | hf
      · exact hfs f hf
      · exact hfs' f hf
    · intro slot' hslot'
      rw [List.mem_cons, not_or] at hslot'
      rw [hl' slot' hslot'.2]
      exact hl slot' fun h => hslot'.1 (List.mem_singleton.mp h)

/-- The answer for slots whose reads no one has waited for. -/
theorem land_all_ok (hnodup : slots.Nodup)
    (hfresh : ∀ slot ∈ slots, slot < s.ahead_range ∧ s.landed slot = false) :
    (s.land_all inp slots).1 = true ↔
      ∀ slot ∈ slots, ∀ f ∈ s.futs (.ahead slot), (inp.result f.key).isOk = true := by
  induction slots generalizing s with
  | nil => exact ⟨fun _ slot h => absurd h List.not_mem_nil, fun _ => rfl⟩
  | cons slot slots ih =>
    obtain ⟨hnot, hnodup⟩ := List.nodup_cons.mp hnodup
    have hland : s.land inp slot = ((s.futs (.ahead slot)).all fun f => (inp.result f.key).isOk,
        { s.wait (s.futs (.ahead slot)) with landed := Function.update s.landed slot true }) :=
      if_pos (hfresh slot List.mem_cons_self)
    have hrest := ih (s := (s.land inp slot).2) hnodup (by
      intro slot' hslot'
      rw [hland]
      have hne : slot' ≠ slot := by
        rintro rfl
        exact hnot hslot'
      refine ⟨(hfresh slot' (List.mem_cons_of_mem _ hslot')).1, ?_⟩
      show Function.update s.landed slot true slot' = false
      rw [Function.update_of_ne hne]
      exact (hfresh slot' (List.mem_cons_of_mem _ hslot')).2)
    rw [State.land_all, List.forall_mem_cons]
    show ((s.land inp slot).1 && ((s.land inp slot).2.land_all inp slots).1) = true ↔ _
    rw [Bool.and_eq_true, hrest, hland, List.all_eq_true]
    exact Iff.rfl

theorem LandsOnly.frame (h : LandsOnly slots s s') :
    s'.reads = s.reads ∧ s'.futs = s.futs ∧ s'.ahead_range = s.ahead_range ∧
      s'.dest = s.dest ∧ s'.held = s.held := by
  obtain ⟨fs, l, rfl, _, _⟩ := h
  exact ⟨rfl, rfl, rfl, rfl, rfl⟩

theorem LandsOnly.inv (h : LandsOnly slots s s') (hinv : Inv s) : Inv s' := by
  obtain ⟨fs, l, rfl, hfs, _⟩ := h
  have hwait := hinv.wait fun f hf => (hfs f hf).imp' Futs.ahead fun _ h => h
  exact ⟨hwait.joined_lt, hwait.ids_lt, hwait.ids_once, hwait.cookies_lt, hwait.cookies_once,
    hwait.settled⟩

theorem LandsOnly.tracked {B : Nat → Prop} (h : LandsOnly slots s s') (ht : Tracked s B) :
    Tracked s' B := by
  obtain ⟨fs, l, rfl, _, _⟩ := h
  exact ht.wait

theorem LandsOnly.pending {i : Nat} {es : List Nat} (h : LandsOnly slots s s') (hinv : Inv s)
    (hp : Pending s i es) : Pending s' i es := by
  obtain ⟨fs, l, rfl, hfs, _⟩ := h
  exact hp.wait hinv fun f hf =>
    (hfs f hf).imp' Futs.ahead fun _ h => ⟨by simp, h⟩

end Land

/-! ### Reservations -/

namespace Input

/-- What the sink answers for an expert. -/
def kind (inp : Input) (L e : Nat) : Kind :=
  if inp.handoff = false then .Drop
  else
    match inp.admit_streamed L e with
    | .error _ => .Drop
    | .ok a =>
      match a.kind with
      | .Drop => .Drop
      | .Fill => .Fill
      | .Resident => .Resident

end Input

/-- A reservation is a Drop, or a new open entry of `held` with the next cookie. -/
theorem reserve_spec (inp : Input) (L : Nat) (s : State) (e : Nat) : ∃ hs d,
    s.reserve inp L e = { s with held := s.held ++ hs, dest := Function.update s.dest e d } ∧
    d.kind = inp.kind L e ∧
    (d.kind = .Drop ∧ hs = [] ∨
      d.kind ≠ .Drop ∧ d.cookie = s.held.length ∧
        ∃ a : StreamAdmit, hs = [⟨a, true⟩] ∧ a.slot = d.slot ∧ (d.kind = .Fill → a.kind = .Fill)) := by
  by_cases hhandoff : inp.handoff = false
  · refine ⟨[], {}, ?_, ?_, .inl ⟨rfl, rfl⟩⟩
    · simp [State.reserve, reserve, hhandoff]
    · simp [Input.kind, hhandoff]
  · cases hadmit : inp.admit_streamed L e with
    | error err =>
      refine ⟨[], {}, ?_, ?_, .inl ⟨rfl, rfl⟩⟩
      · simp [State.reserve, reserve, hhandoff, hadmit]
      · simp [Input.kind, hhandoff, hadmit]
    | ok a =>
      cases hkind : a.kind with
      | Drop =>
        refine ⟨[], {}, ?_, ?_, .inl ⟨rfl, rfl⟩⟩
        · simp [State.reserve, reserve, hhandoff, hadmit, hkind]
        · simp [Input.kind, hhandoff, hadmit, hkind]
      | Fill =>
        refine ⟨[⟨a, true⟩], ⟨.Fill, a.slot, s.held.length⟩, ?_, ?_,
          .inr ⟨(by decide : Kind.Fill ≠ .Drop), rfl, a, rfl, rfl, fun _ => hkind⟩⟩
        · simp [State.reserve, reserve, hhandoff, hadmit, hkind]
        · simp [Input.kind, hhandoff, hadmit, hkind]
      | Resident =>
        refine ⟨[⟨a, true⟩], ⟨.Resident, a.slot, s.held.length⟩, ?_, ?_,
          .inr ⟨(by decide : Kind.Resident ≠ .Drop), rfl, a, rfl, rfl,
            fun h => absurd h (by decide : Kind.Resident ≠ .Fill)⟩⟩
        · simp [State.reserve, reserve, hhandoff, hadmit, hkind]
        · simp [Input.kind, hhandoff, hadmit, hkind]

/-- What a reservation leaves as it is. -/
theorem reserve_frame (inp : Input) (L : Nat) (s : State) (e : Nat) :
    (s.reserve inp L e).reads = s.reads ∧ (s.reserve inp L e).joined = s.joined ∧
      (s.reserve inp L e).futs = s.futs ∧ (s.reserve inp L e).ahead_range = s.ahead_range ∧
      (s.reserve inp L e).landed = s.landed ∧
      ∀ e', e' ≠ e → (s.reserve inp L e).dest e' = s.dest e' := by
  obtain ⟨hs, d, heq, _, _⟩ := reserve_spec inp L s e
  rw [heq]
  exact ⟨rfl, rfl, rfl, rfl, rfl, fun e' he' => Function.update_of_ne he' _ _⟩

theorem reserve_kind (e : Nat) : ((s.reserve inp L e).dest e).kind = inp.kind L e := by
  obtain ⟨hs, d, heq, hkind, _⟩ := reserve_spec inp L s e
  rw [heq]
  show (Function.update s.dest e d e).kind = _
  rw [Function.update_self, hkind]

theorem reserve_open {e : Nat} (hfill : ((s.reserve inp L e).dest e).kind = .Fill) :
    OpenFill (s.reserve inp L e) e ((s.reserve inp L e).dest e).slot := by
  obtain ⟨hs, d, heq, _, hcase⟩ := reserve_spec inp L s e
  rw [heq] at hfill ⊢
  have hdest : ({ s with held := s.held ++ hs, dest := Function.update s.dest e d } : State).dest e
      = d := Function.update_self _ _ _
  rw [hdest] at hfill ⊢
  rcases hcase with ⟨hdrop, _⟩ | ⟨hnot, hcookie, a, rfl, hslot, hakind⟩
  · rw [hdrop] at hfill
    cases hfill
  · refine ⟨?_, a, ?_, hakind hfill, hslot⟩
    · rw [hdest]
      exact hnot
    · rw [hdest, hcookie]
      exact List.getElem?_concat_length

theorem Inv.reserve (h : Inv s) (e : Nat) : Inv (s.reserve inp L e) := by
  obtain ⟨hs, d, heq, _, hcase⟩ := reserve_spec inp L s e
  rw [heq]
  have hupd : ∀ e' : Nat, e' ≠ e → Function.update s.dest e d e' = s.dest e' :=
    fun e' he' => Function.update_of_ne he' _ _
  have hself : Function.update s.dest e d e = d := Function.update_self _ _ _
  refine ⟨h.joined_lt, h.ids_lt, h.ids_once, fun e' he' => ?_, fun e₁ e₂ h₁ h₂ hcookie => ?_,
    fun c => ?_⟩
  · show (Function.update s.dest e d e').cookie < (s.held ++ hs).length
    rw [List.length_append]
    by_cases hee : e' = e
    · subst hee
      simp only [hself] at he' ⊢
      rcases hcase with ⟨hdrop, _⟩ | ⟨_, hlen, a, rfl, _, _⟩
      · exact absurd hdrop he'
      · rw [hlen]
        exact Nat.lt_succ_self _
    · simp only [hupd e' hee] at he' ⊢
      exact Nat.lt_add_right _ (h.cookies_lt e' he')
  · -- the new cookie is larger than the others
    have hfresh : d.kind ≠ .Drop → ∀ e', (s.dest e').kind ≠ .Drop → d.cookie ≠ (s.dest e').cookie := by
      intro hd e' he' heq
      rcases hcase with ⟨hdrop, _⟩ | ⟨_, hlen, _⟩
      · exact hd hdrop
      · exact absurd (h.cookies_lt e' he') (by omega)
    by_cases he₁ : e₁ = e
    · by_cases he₂ : e₂ = e
      · rw [he₁, he₂]
      · subst he₁
        simp only [hself, hupd e₂ he₂] at h₁ h₂ hcookie
        exact absurd hcookie (hfresh h₁ e₂ h₂)
    · by_cases he₂ : e₂ = e
      · subst he₂
        simp only [hself, hupd e₁ he₁] at h₁ h₂ hcookie
        exact absurd hcookie.symm (hfresh h₂ e₁ h₁)
      · simp only [hupd e₁ he₁, hupd e₂ he₂] at h₁ h₂ hcookie
        exact h.cookies_once e₁ e₂ h₁ h₂ hcookie
  · show s.settled.count c = if ((s.held ++ hs)[c]?.map Held.is_open) = some false then 1 else 0
    rw [h.settled c]
    rcases hcase with ⟨_, rfl⟩ | ⟨_, _, a, rfl, _, _⟩
    · rw [List.append_nil]
    · rcases Nat.lt_trichotomy c s.held.length with hlt | rfl | hgt
      · rw [List.getElem?_append_left hlt]
      · simp
      · rw [List.getElem?_eq_none (by omega), List.getElem?_eq_none (by simp; omega)]

theorem Tracked.reserve {B : Nat → Prop} (h : Tracked s B) (e : Nat) :
    Tracked (s.reserve inp L e) B := by
  obtain ⟨hs, d, heq, _, _⟩ := reserve_spec inp L s e
  rw [heq]
  exact h

theorem Pending.reserve (inp : Input) (L : Nat) {i : Nat} {es : List Nat} (h : Pending s i es)
    {e : Nat} (he : e ∉ es) :
    Pending (s.reserve inp L e) i es := by
  obtain ⟨hs, d, heq, _, _⟩ := reserve_spec inp L s e
  rw [heq]
  intro f hf
  obtain ⟨hmem, hjoined, dst, hdst, hopen⟩ := h f hf
  refine ⟨hmem, hjoined, dst, hdst, fun slot hslot => ?_⟩
  obtain ⟨hkind, a, hheld, ha⟩ := hopen slot hslot
  have hne : f.key.expert ≠ e := fun h => he (h ▸ hmem)
  have hupd : Function.update s.dest e d f.key.expert = s.dest f.key.expert :=
    Function.update_of_ne hne _ _
  refine ⟨?_, a, ?_, ha⟩
  · show (Function.update s.dest e d f.key.expert).kind ≠ .Drop
    rw [hupd]
    exact hkind
  · show (s.held ++ hs)[(Function.update s.dest e d f.key.expert).cookie]? = _
    rw [hupd, List.getElem?_append_left (List.getElem?_eq_some_iff.mp hheld).1, hheld]

/-! ### Reservations are settled -/

section Settle

variable {c : Nat} {ok : Bool}

/-- Only an open reservation is settled. -/
theorem settle_cases (s : State) (c : Nat) (ok : Bool) :
    s.settle c ok = s ∧ (∀ hd, s.held[c]? = some hd → hd.is_open = false) ∨
      ∃ a, s.held[c]? = some ⟨a, true⟩ ∧
        s.settle c ok = { s with
          held := s.held.set c ⟨a, false⟩
          settled := s.settled ++ [c]
          freed := if a.kind = .Fill ∧ ok = false then s.freed ++ [a.slot] else s.freed } := by
  rw [State.settle]
  cases hheld : s.held[c]? with
  | none => exact .inl ⟨rfl, fun hd h => by cases h⟩
  | some hd =>
    cases hd with
    | mk a is_open =>
      cases is_open with
      | true => exact .inr ⟨a, rfl, if_pos rfl⟩
      | false => exact .inl ⟨if_neg Bool.false_ne_true, fun hd h => by cases h; rfl⟩

theorem settle_frame (s : State) (c : Nat) (ok : Bool) : ∃ hs st fr,
    s.settle c ok = { s with held := hs, settled := st, freed := fr } := by
  rcases settle_cases s c ok with ⟨h, _⟩ | ⟨a, _, h⟩
  · exact ⟨_, _, _, h⟩
  · exact ⟨_, _, _, h⟩

theorem Inv.settle (h : Inv s) (c : Nat) (ok : Bool) : Inv (s.settle c ok) := by
  rcases settle_cases s c ok with ⟨heq, _⟩ | ⟨a, hheld, heq⟩
  · rw [heq]
    exact h
  · rw [heq]
    have hc : c < s.held.length := (List.getElem?_eq_some_iff.mp hheld).1
    refine ⟨h.joined_lt, h.ids_lt, h.ids_once, fun e he => ?_, h.cookies_once, fun c' => ?_⟩
    · show (s.dest e).cookie < (s.held.set c _).length
      rw [List.length_set]
      exact h.cookies_lt e he
    · show (s.settled ++ [c]).count c' =
        if ((s.held.set c ⟨a, false⟩)[c']?.map Held.is_open) = some false then 1 else 0
      rw [List.count_append, h.settled c']
      by_cases hcc : c = c'
      · subst hcc
        rw [List.getElem?_set_self hc, hheld]
        simp
      · rw [List.getElem?_set_ne hcc, List.count_singleton, beq_eq_false_iff_ne.mpr hcc]
        simp

theorem Pending.settle {i : Nat} {es : List Nat} (h : Pending s i es)
    (hc : ∀ e ∈ es, (s.dest e).kind ≠ .Drop → (s.dest e).cookie ≠ c) :
    Pending (s.settle c ok) i es := by
  rcases settle_cases s c ok with ⟨heq, _⟩ | ⟨a, hheld, heq⟩
  · rw [heq]
    exact h
  · rw [heq]
    intro f hf
    obtain ⟨hmem, hjoined, dst, hdst, hopen⟩ := h f hf
    refine ⟨hmem, hjoined, dst, hdst, fun slot hslot => ?_⟩
    obtain ⟨hkind, b, hb, hfill⟩ := hopen slot hslot
    refine ⟨hkind, b, ?_, hfill⟩
    show (s.held.set c ⟨a, false⟩)[(s.dest f.key.expert).cookie]? = _
    rw [List.getElem?_set_ne (Ne.symm (hc _ hmem hkind)), hb]

/-- The releases of a batch, one expert at a time. -/
theorem release_frame (es : List Nat) (ok : Bool) : ∃ hs st fr,
    s.release es ok = { s with held := hs, settled := st, freed := fr } := by
  induction es generalizing s with
  | nil => exact ⟨_, _, _, rfl⟩
  | cons e es ih =>
    show ∃ hs st fr, State.release (if (s.dest e).kind = .Drop then s
      else s.settle (s.dest e).cookie ok) es ok = _
    split
    · exact ih
    · obtain ⟨hs, st, fr, heq⟩ := settle_frame s (s.dest e).cookie ok
      rw [heq]
      obtain ⟨hs', st', fr', heq'⟩ := ih (s := { s with held := hs, settled := st, freed := fr })
      exact ⟨hs', st', fr', heq'⟩

theorem Inv.release (h : Inv s) (es : List Nat) (ok : Bool) : Inv (s.release es ok) := by
  induction es generalizing s with
  | nil => exact h
  | cons e es ih =>
    show Inv (State.release (if (s.dest e).kind = .Drop then s
      else s.settle (s.dest e).cookie ok) es ok)
    split
    · exact ih h
    · exact ih (h.settle _ _)

theorem Tracked.release {B : Nat → Prop} (h : Tracked s B) (es : List Nat) (ok : Bool) :
    Tracked (s.release es ok) B := by
  obtain ⟨hs, st, fr, heq⟩ := release_frame (s := s) es ok
  rw [heq]
  exact h

/-- Another batch's releases close none of the reservations of a batch's reads. -/
theorem Pending.release {i : Nat} {es : List Nat} (h : Pending s i es) (hinv : Inv s)
    {es' : List Nat} (hdisj : ∀ e ∈ es', e ∉ es) (ok : Bool) :
    Pending (s.release es' ok) i es := by
  induction es' generalizing s with
  | nil => exact h
  | cons e es' ih =>
    obtain ⟨he, hdisj⟩ := List.forall_mem_cons.mp hdisj
    show Pending (State.release (if (s.dest e).kind = .Drop then s
      else s.settle (s.dest e).cookie ok) es' ok) i es
    split
    · exact ih h hinv hdisj
    · rename_i hkind
      refine ih (h.settle fun e' he' hkind' hcookie => ?_) (hinv.settle _ _) hdisj
      exact he (hinv.cookies_once e' e hkind' hkind hcookie ▸ he')

end Settle

end CachedMoe.Gpu
