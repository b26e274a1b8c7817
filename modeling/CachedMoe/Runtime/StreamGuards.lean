import CachedMoe.Runtime.MultiStream

/-! # The guards of several streams

    The state of a stream between two of its actions (`Status`), what it says of the three guard
    fields and of the readings that are not complete (`StreamOk`), and the invariant over all
    streams (`Ok`): the completed timeline stays below the guard of every such reading.

    A wait publishes the guard it proves complete, below those that the other streams have open or
    in flight. The guard of a layer between its gate and its MoE is in neither field, so a wait
    needs more: `Ahead`, that these guards are above what the waiting streams can publish. -/

namespace CachedMoe.Runtime.MultiStream

open CachedMoe Store

variable {n : Nat} {s s' : State n} {j : Fin n} {g : Nat} {r : Reading n}

/-! ### Readings -/

/-- The buffer that reads last has completed. -/
def Done (s : State n) (r : Reading n) : Prop :=
  ∃ f, r.reader = .submitted f ∧ f ≤ (s.stream r.stream).fence

/-- `g` is the guard of a layer of stream `j` whose last reading buffer has not completed. -/
structure Live (s : State n) (j : Fin n) (g : Nat) (r : Reading n) : Prop where
  reading : s.readings g = some r
  stream : r.stream = j
  pending : ¬ Done s r

/-- The live readings of stream `j` are of its guard `v`, in a buffer that is not submitted. -/
def AllOpen (s : State n) (j : Fin n) (v : Nat) (b : Reader) : Prop :=
  ∀ g r, Live s j g r → g = v ∧ r.reader = b

/-- The live readings of stream `j` are in flight, with fences up to `last`. -/
def AllInflight (s : State n) (j : Fin n) (last : Nat) : Prop :=
  ∀ g r, Live s j g r →
    g = (s.stream j).inflight_guard ∧ ∃ f, r.reader = .submitted f ∧ f ≤ last

/-! ### Where a stream stands -/

inductive Status where
  /-- Between two layers: the last MoE is recorded or in flight. -/
  | ready
  /-- The same, with an open buffer. -/
  | opened
  | sent
  /-- The attention of a layer is submitted. -/
  | begun
  | waited
  /-- Behind the gate, without a guard. -/
  | unguarded
  /-- Behind the gate, with a guard that is in no field that other streams look at. -/
  | gated
  | gated_open
  | masked
  | masked_open
  /-- The MoE is recorded, its guard not yet moved to `open_guard_`. -/
  | recorded
  deriving Repr, DecidableEq

/-- Behind the gate and before the end of the MoE. -/
def Status.inside : Status → Bool
  | .ready | .opened | .sent | .begun => false
  | _ => true

/-- Nothing of the stream is live. -/
structure Quiet (s : State n) (j : Fin n) : Prop where
  inflight : (s.stream j).inflight_guard = 0
  open_guard : (s.stream j).open_guard = 0
  none_live : ∀ g r, ¬ Live s j g r

/-- The layer of stream `j` has a guard and is not submitted. -/
structure Numbered (s : State n) (j : Fin n) (b : Reader) : Prop where
  inflight : (s.stream j).inflight_guard = 0
  pending : (s.stream j).layer_guard_pending = true
  reading : s.readings (s.stream j).layer_guard = some ⟨j, b⟩
  all : AllOpen s j (s.stream j).layer_guard b

def StreamOk (s : State n) (j : Fin n) : Status → Prop
  | .ready =>
    ((s.stream j).open_guard = 0 ∧ AllInflight s j (s.stream j).fence_value) ∨
      ((s.stream j).tok_open = true ∧ (s.stream j).inflight_guard = 0 ∧
        AllOpen s j (s.stream j).open_guard .recorded)
  | .opened =>
    (s.stream j).tok_open = true ∧
      (((s.stream j).open_guard = 0 ∧ AllInflight s j (s.stream j).fence_value) ∨
        ((s.stream j).inflight_guard = 0 ∧ AllOpen s j (s.stream j).open_guard .recorded))
  | .sent => (s.stream j).open_guard = 0 ∧ AllInflight s j (s.stream j).fence_value
  | .begun =>
    (s.stream j).open_guard = 0 ∧ (s.stream j).gate_fence ≤ (s.stream j).fence_value ∧
      AllInflight s j (s.stream j).gate_fence
  | .waited => Quiet s j
  | .unguarded => Quiet s j ∧ (s.stream j).layer_guard_pending = false
  | .gated => Numbered s j .unrecorded ∧ (s.stream j).open_guard = 0
  | .gated_open =>
    Numbered s j .unrecorded ∧ (s.stream j).open_guard = 0 ∧ (s.stream j).tok_open = true
  | .masked => Numbered s j .unrecorded ∧ (s.stream j).open_guard = (s.stream j).layer_guard
  | .masked_open =>
    Numbered s j .unrecorded ∧ (s.stream j).open_guard = (s.stream j).layer_guard ∧
      (s.stream j).tok_open = true
  | .recorded => Numbered s j .recorded ∧ (s.stream j).tok_open = true

/-! ### The invariant -/

/-- What holds whatever the streams do. -/
structure Books (s : State n) : Prop where
  store : Store.Inv s.engine.store
  completed : s.engine.store.completed_timeline ≤ s.engine.guard_clock
  numbers : ∀ g r, s.readings g = some r → 0 < g ∧ g ≤ s.engine.guard_clock
  fields : ∀ j, (s.stream j).open_guard ≤ s.engine.guard_clock ∧
    (s.stream j).inflight_guard ≤ s.engine.guard_clock
  fences : ∀ j, (s.stream j).fence ≤ (s.stream j).fence_value
  below : ∀ j g r, Live s j g r → s.engine.store.completed_timeline < g
  held_numbers : ∀ h ∈ s.held, h.guard ≤ s.engine.guard_clock
  held : ∀ j g r, Live s j g r → ∀ h ∈ s.held, h.guard = g →
    Guarded s.engine.store h.slot g ∧ (s.engine.store.slots h.slot).key = h.key

structure Ok (stat : Fin n → Status) (s : State n) : Prop where
  books : Books s
  streams : ∀ j, StreamOk s j (stat j)

/-- A guard that is in no field is above what the streams outside their layers can publish. -/
def Ahead (stat : Fin n → Status) (s : State n) : Prop :=
  ∀ i g r, Live s i g r → (stat i).inside = true → ∀ j, (stat j).inside = false →
    (s.stream j).inflight_guard < g ∧ (s.stream j).open_guard < g

/-! ### Frames -/

/-- Stream `i` is where it was, except that the GPU may have gone on. -/
structure Frame (s s' : State n) (i : Fin n) : Prop where
  fence : (s.stream i).fence ≤ (s'.stream i).fence
  stream : s'.stream i = { s.stream i with fence := (s'.stream i).fence }
  readings : ∀ g r, r.stream = i → (s'.readings g = some r ↔ s.readings g = some r)

theorem Frame.trans {s₁ : State n} {i : Fin n} (h : Frame s s₁ i) (h' : Frame s₁ s' i) :
    Frame s s' i := by
  refine ⟨Nat.le_trans h.fence h'.fence, ?_, fun g r hr => (h'.readings g r hr).trans (h.readings g r hr)⟩
  rw [h'.stream, h.stream]

theorem Frame.live {i : Fin n} (h : Frame s s' i) (hlive : Live s' i g r) : Live s i g r := by
  refine ⟨(h.readings g r hlive.stream).mp hlive.reading, hlive.stream, fun hdone => hlive.pending ?_⟩
  obtain ⟨f, hreader, hf⟩ := hdone
  obtain rfl := hlive.stream
  exact ⟨f, hreader, Nat.le_trans hf h.fence⟩

section Frame

variable {i : Fin n} (h : Frame s s' i)
include h

theorem Frame.fence_value : (s'.stream i).fence_value = (s.stream i).fence_value := by rw [h.stream]

theorem Frame.tok_open : (s'.stream i).tok_open = (s.stream i).tok_open := by rw [h.stream]

theorem Frame.layer_guard : (s'.stream i).layer_guard = (s.stream i).layer_guard := by rw [h.stream]

theorem Frame.layer_guard_pending :
    (s'.stream i).layer_guard_pending = (s.stream i).layer_guard_pending := by rw [h.stream]

theorem Frame.open_guard : (s'.stream i).open_guard = (s.stream i).open_guard := by rw [h.stream]

theorem Frame.inflight_guard : (s'.stream i).inflight_guard = (s.stream i).inflight_guard := by
  rw [h.stream]

theorem Frame.gate_fence : (s'.stream i).gate_fence = (s.stream i).gate_fence := by rw [h.stream]

theorem Frame.all_open {v : Nat} {b : Reader} (hall : AllOpen s i v b) : AllOpen s' i v b :=
  fun g r hlive => hall g r (h.live hlive)

theorem Frame.all_inflight {last : Nat} (hall : AllInflight s i last) : AllInflight s' i last := by
  intro g r hlive
  rw [h.inflight_guard]
  exact hall g r (h.live hlive)

theorem Frame.quiet (hquiet : Quiet s i) : Quiet s' i where
  inflight := h.inflight_guard.trans hquiet.inflight
  open_guard := h.open_guard.trans hquiet.open_guard
  none_live := fun g r hlive => hquiet.none_live g r (h.live hlive)

theorem Frame.numbered {b : Reader} (hnum : Numbered s i b) : Numbered s' i b where
  inflight := h.inflight_guard.trans hnum.inflight
  pending := h.layer_guard_pending.trans hnum.pending
  reading := by
    rw [h.layer_guard]
    exact (h.readings _ _ rfl).mpr hnum.reading
  all := by
    rw [h.layer_guard]
    exact h.all_open hnum.all

theorem Frame.ok {t : Status} (hok : StreamOk s i t) : StreamOk s' i t := by
  cases t with
  | ready =>
    unfold StreamOk at hok ⊢
    rw [h.open_guard, h.fence_value, h.tok_open, h.inflight_guard]
    exact hok.imp (.imp_right h.all_inflight) (.imp_right (.imp_right h.all_open))
  | opened =>
    unfold StreamOk at hok ⊢
    rw [h.open_guard, h.fence_value, h.tok_open, h.inflight_guard]
    exact hok.imp_right (.imp (.imp_right h.all_inflight) (.imp_right h.all_open))
  | sent =>
    unfold StreamOk at hok ⊢
    rw [h.open_guard, h.fence_value]
    exact hok.imp_right h.all_inflight
  | begun =>
    unfold StreamOk at hok ⊢
    rw [h.open_guard, h.fence_value, h.gate_fence]
    exact hok.imp_right (.imp_right h.all_inflight)
  | waited => exact h.quiet hok
  | unguarded => exact ⟨h.quiet hok.1, h.layer_guard_pending.trans hok.2⟩
  | gated => exact ⟨h.numbered hok.1, h.open_guard.trans hok.2⟩
  | gated_open => exact ⟨h.numbered hok.1, h.open_guard.trans hok.2.1, h.tok_open.trans hok.2.2⟩
  | masked =>
    refine ⟨h.numbered hok.1, ?_⟩
    rw [h.open_guard, h.layer_guard]
    exact hok.2
  | masked_open =>
    refine ⟨h.numbered hok.1, ?_, h.tok_open.trans hok.2.2⟩
    rw [h.open_guard, h.layer_guard]
    exact hok.2.1
  | recorded => exact ⟨h.numbered hok.1, h.tok_open.trans hok.2⟩

end Frame

/-! ### The invariant over a step -/

/-- A step of stream `j` to status `t`. -/
structure Step (s s' : State n) (j : Fin n) (t : Status) : Prop where
  books : Books s'
  mine : StreamOk s' j t
  others : ∀ i, i ≠ j → Frame s s' i

/-- A step that lets no stream publish more than before: a guard that is new inside a layer is a
    new number, and what is outside was outside. -/
structure Calm (s s' : State n) (j : Fin n) (t t' : Status) : Prop where
  live : t'.inside = true → ∀ g r, Live s' j g r →
    (t.inside = true ∧ ∃ r', Live s j g r') ∨ s.engine.guard_clock < g
  fields : t'.inside = false → t.inside = false ∧
    ∀ b, (s.stream j).inflight_guard < b → (s.stream j).open_guard < b →
      (s'.stream j).inflight_guard < b ∧ (s'.stream j).open_guard < b

variable {stat : Fin n → Status} {t : Status}

theorem Ok.step (h : Ok stat s) (hstep : Step s s' j t) : Ok (Function.update stat j t) s' := by
  refine ⟨hstep.books, fun i => ?_⟩
  by_cases hi : i = j
  · subst hi
    rw [Function.update_self]
    exact hstep.mine
  · rw [Function.update_of_ne hi]
    exact (hstep.others i hi).ok (h.streams i)

theorem Ahead.step (h : Ok stat s) (hahead : Ahead stat s) (hstep : Step s s' j t)
    (hcalm : Calm s s' j (stat j) t) : Ahead (Function.update stat j t) s' := by
  -- the fields of a stream outside are below `b` where they were
  have hfields : ∀ k b, (Function.update stat j t k).inside = false →
      ((stat k).inside = false → (s.stream k).inflight_guard < b ∧ (s.stream k).open_guard < b) →
      (s'.stream k).inflight_guard < b ∧ (s'.stream k).open_guard < b := by
    intro k b hout hbelow
    by_cases hk : k = j
    · subst hk
      rw [Function.update_self] at hout
      obtain ⟨hwas, hfield⟩ := hcalm.fields hout
      obtain ⟨hin, hopen⟩ := hbelow hwas
      exact hfield b hin hopen
    · rw [Function.update_of_ne hk] at hout
      rw [(hstep.others k hk).inflight_guard, (hstep.others k hk).open_guard]
      exact hbelow hout
  intro i g r hlive hinside k hout
  refine hfields k g hout fun hwas => ?_
  by_cases hi : i = j
  · subst hi
    rw [Function.update_self] at hinside
    rcases hcalm.live hinside g r hlive with ⟨hin, r', hlive'⟩ | hnew
    · exact hahead i g r' hlive' hin k hwas
    · have hk := h.books.fields k
      omega
  · rw [Function.update_of_ne hi] at hinside
    exact hahead i g r ((hstep.others i hi).live hlive) hinside k hwas

/-- Statuses that say less. -/
theorem Ok.weaken {stat' : Fin n → Status} (h : Ok stat s)
    (hweak : ∀ j, StreamOk s j (stat j) → StreamOk s j (stat' j)) : Ok stat' s :=
  ⟨h.books, fun j => hweak j (h.streams j)⟩

theorem StreamOk.ready_of_sent (h : StreamOk s j .sent) : StreamOk s j .ready := .inl h

theorem StreamOk.ready_of_opened (h : StreamOk s j .opened) : StreamOk s j .ready :=
  h.2.imp id fun hopen => ⟨h.1, hopen⟩

theorem StreamOk.sent_of_waited (h : StreamOk s j .waited) : StreamOk s j .sent :=
  ⟨h.open_guard, fun g r hlive => absurd hlive (h.none_live g r)⟩

/-! ### The environment -/

@[simp] theorem stream_set_self (v : Stream) : (s.set_stream j v).stream j = v :=
  Function.update_self ..

theorem stream_set_ne {i : Fin n} (hi : i ≠ j) (v : Stream) :
    (s.set_stream j v).stream i = s.stream i :=
  Function.update_of_ne hi ..

/-- A step that leaves the store, the numbers and what is held. -/
theorem Books.keep (h : Books s) (hstore : s'.engine.store = s.engine.store)
    (hclock : s'.engine.guard_clock = s.engine.guard_clock) (hheld : s'.held = s.held)
    (hreadings : ∀ g r, s'.readings g = some r → ∃ r', s.readings g = some r')
    (hlive : ∀ i g r, Live s' i g r → ∃ r', Live s i g r')
    (hfields : ∀ i, (s'.stream i).open_guard ≤ s.engine.guard_clock ∧
      (s'.stream i).inflight_guard ≤ s.engine.guard_clock)
    (hfences : ∀ i, (s'.stream i).fence ≤ (s'.stream i).fence_value) : Books s' where
  store := hstore ▸ h.store
  completed := by
    rw [hstore, hclock]
    exact h.completed
  numbers := by
    intro g r hg
    obtain ⟨r', hr'⟩ := hreadings g r hg
    rw [hclock]
    exact h.numbers g r' hr'
  fields := by
    rw [hclock]
    exact hfields
  fences := hfences
  below := by
    intro i g r hl
    obtain ⟨r', hl'⟩ := hlive i g r hl
    rw [hstore]
    exact h.below i g r' hl'
  held_numbers := by
    rw [hclock, hheld]
    exact h.held_numbers
  held := by
    intro i g r hl
    obtain ⟨r', hl'⟩ := hlive i g r hl
    rw [hstore, hheld]
    exact h.held i g r' hl'

/-- A store operation that leaves the timeline. -/
theorem Books.fetch {st : ExpertStore} (h : Books s) (hinv : Store.Inv st)
    (hcompleted : st.completed_timeline = s.engine.store.completed_timeline)
    (hguarded : ∀ slot g, s.engine.store.completed_timeline < g →
      Guarded s.engine.store slot g → Guarded st slot g ∧ SamePlace s.engine.store st slot) :
    Books { s with engine := { s.engine with store := st } } where
  store := hinv
  completed := hcompleted.trans_le h.completed
  numbers := h.numbers
  fields := h.fields
  fences := h.fences
  below := fun i g r hl => hcompleted.trans_lt (h.below i g r ⟨hl.reading, hl.stream, hl.pending⟩)
  held_numbers := h.held_numbers
  held := by
    intro i g r hl k hk hkg
    have hold : Live s i g r := ⟨hl.reading, hl.stream, hl.pending⟩
    obtain ⟨hg, hkey⟩ := h.held i g r hold k hk hkg
    obtain ⟨hg', hplace⟩ := hguarded k.slot g (h.below i g r hold) hg
    exact ⟨hg', hplace.key.trans hkey⟩

theorem Books.apply (h : Books s) {op : Op} (hop : fetches op = true) :
    Books { s with engine := { s.engine with store := s.engine.store.apply op } } := by
  have hkeeps : op.keeps_contents = true := by
    cases op
    all_goals first | rfl | cases hop
  have hcompleted := apply_completed s.engine.store hkeeps (fun v heq => by
    subst heq
    cases hop)
  refine h.fetch (h.store.apply op) hcompleted fun slot g hg hguarded => ?_
  exact h.store.apply_guarded hkeeps hguarded (hcompleted.trans_lt hg)

/-- The environment moves no stream back. -/
theorem env_frame {ev : Event n} (hev : s.env ev = some s') (i : Fin n) : Frame s s' i := by
  cases ev with
  | gpu j =>
    unfold State.env at hev
    dsimp only at hev
    split at hev
    · cases hev
      by_cases hi : i = j
      · subst hi
        refine ⟨?_, ?_, fun _ _ _ => Iff.rfl⟩
        · rw [stream_set_self]
          exact Nat.le_succ _
        · rw [stream_set_self]
      · refine ⟨?_, ?_, fun _ _ _ => Iff.rfl⟩
        · rw [stream_set_ne hi]
        · rw [stream_set_ne hi]
    · cases hev
  | store op =>
    unfold State.env at hev
    dsimp only at hev
    split at hev
    · cases hev
      exact ⟨Nat.le_refl _, rfl, fun _ _ _ => Iff.rfl⟩
    · cases hev

theorem env_books {ev : Event n} (h : Books s) (hev : s.env ev = some s') : Books s' := by
  have hframe := env_frame hev
  cases ev with
  | gpu j =>
    unfold State.env at hev
    dsimp only at hev
    split at hev
    · next hlt =>
      cases hev
      refine h.keep rfl rfl rfl (fun g r hr => ⟨r, hr⟩) (fun i g r hl => ⟨r, (hframe i).live hl⟩)
        (fun i => ?_) (fun i => ?_)
      · rw [(hframe i).open_guard, (hframe i).inflight_guard]
        exact h.fields i
      · by_cases hi : i = j
        · subst hi
          rw [stream_set_self]
          exact hlt
        · rw [stream_set_ne hi]
          exact h.fences i
    · cases hev
  | store op =>
    unfold State.env at hev
    dsimp only at hev
    split at hev
    · next hop =>
      cases hev
      exact h.apply hop
    · cases hev

theorem Ok.env {ev : Event n} (h : Ok stat s) (hev : s.env ev = some s') : Ok stat s' :=
  ⟨env_books h.books hev, fun i => (env_frame hev i).ok (h.streams i)⟩

theorem Ahead.env {ev : Event n} (h : Ahead stat s) (hev : s.env ev = some s') : Ahead stat s' := by
  intro i g r hlive hin j hout
  rw [(env_frame hev j).inflight_guard, (env_frame hev j).open_guard]
  exact h i g r ((env_frame hev i).live hlive) hin j hout

/-! ### Actions on the fields of a stream -/

section Fields

variable {v : Stream}

theorem set_live {i : Fin n} (hv : v.fence = (s.stream j).fence)
    (hlive : Live (s.set_stream j v) i g r) : Live s i g r := by
  refine ⟨hlive.reading, hlive.stream, fun hdone => hlive.pending ?_⟩
  obtain ⟨f, hreader, hf⟩ := hdone
  refine ⟨f, hreader, ?_⟩
  by_cases hi : r.stream = j
  · rw [hi, stream_set_self, hv, ← hi]
    exact hf
  · rw [stream_set_ne hi]
    exact hf

theorem set_frame {i : Fin n} (hi : i ≠ j) : Frame s (s.set_stream j v) i := by
  refine ⟨?_, ?_, fun _ _ _ => Iff.rfl⟩
  · rw [stream_set_ne hi]
  · rw [stream_set_ne hi]

theorem set_books (h : Books s) (hv : v.fence = (s.stream j).fence)
    (hvalue : (s.stream j).fence_value ≤ v.fence_value)
    (hfields : v.open_guard ≤ s.engine.guard_clock ∧ v.inflight_guard ≤ s.engine.guard_clock) :
    Books (s.set_stream j v) := by
  refine h.keep rfl rfl rfl (fun g r hr => ⟨r, hr⟩) (fun i g r hl => ⟨r, set_live hv hl⟩)
    (fun i => ?_) (fun i => ?_)
  · by_cases hi : i = j
    · subst hi
      rw [stream_set_self]
      exact hfields
    · rw [stream_set_ne hi]
      exact h.fields i
  · by_cases hi : i = j
    · subst hi
      rw [stream_set_self, hv]
      exact Nat.le_trans (h.fences i) hvalue
    · rw [stream_set_ne hi]
      exact h.fences i

/-- An action that sets fields other than fences and the guards open and in flight. -/
theorem set_step (h : Books s) (hv : v.fence = (s.stream j).fence)
    (hvalue : v.fence_value = (s.stream j).fence_value)
    (hopen : v.open_guard = (s.stream j).open_guard)
    (hinflight : v.inflight_guard = (s.stream j).inflight_guard)
    (hmine : StreamOk (s.set_stream j v) j t) : Step s (s.set_stream j v) j t := by
  refine ⟨set_books h hv hvalue.ge ?_, hmine, fun i hi => set_frame hi⟩
  rw [hopen, hinflight]
  exact h.fields j

theorem set_calm {t' : Status} (hv : v.fence = (s.stream j).fence)
    (hopen : v.open_guard = (s.stream j).open_guard)
    (hinflight : v.inflight_guard = (s.stream j).inflight_guard)
    (hinside : t'.inside = t.inside) : Calm s (s.set_stream j v) j t t' := by
  refine ⟨fun hin g r hlive => .inl ⟨hinside ▸ hin, r, set_live hv hlive⟩, fun hout => ?_⟩
  refine ⟨hinside ▸ hout, fun b hin hop => ?_⟩
  rw [stream_set_self, hopen, hinflight]
  exact ⟨hin, hop⟩

theorem AllOpen.set {w : Nat} {b : Reader} (h : AllOpen s j w b) (hv : v.fence = (s.stream j).fence) :
    AllOpen (s.set_stream j v) j w b :=
  fun g r hlive => h g r (set_live hv hlive)

theorem AllInflight.set {last : Nat} (h : AllInflight s j last) (hv : v.fence = (s.stream j).fence)
    (hinflight : v.inflight_guard = (s.stream j).inflight_guard) :
    AllInflight (s.set_stream j v) j last := by
  intro g r hlive
  rw [stream_set_self, hinflight]
  exact h g r (set_live hv hlive)

theorem Quiet.set (h : Quiet s j) (hv : v.fence = (s.stream j).fence)
    (hinflight : v.inflight_guard = (s.stream j).inflight_guard)
    (hopen : v.open_guard = (s.stream j).open_guard) : Quiet (s.set_stream j v) j where
  inflight := by rw [stream_set_self, hinflight, h.inflight]
  open_guard := by rw [stream_set_self, hopen, h.open_guard]
  none_live := fun g r hlive => h.none_live g r (set_live hv hlive)

theorem Numbered.set {b : Reader} (h : Numbered s j b) (hv : v.fence = (s.stream j).fence)
    (hinflight : v.inflight_guard = (s.stream j).inflight_guard)
    (hpending : v.layer_guard_pending = (s.stream j).layer_guard_pending)
    (hlayer : v.layer_guard = (s.stream j).layer_guard) : Numbered (s.set_stream j v) j b where
  inflight := by rw [stream_set_self, hinflight, h.inflight]
  pending := by rw [stream_set_self, hpending, h.pending]
  reading := by
    rw [stream_set_self, hlayer]
    exact h.reading
  all := by
    rw [stream_set_self, hlayer]
    exact h.all.set hv

end Fields

theorem cmd_open_eq (e : Engine n) (j : Fin n) :
    e.cmd_open j = e.set_stream j { e.streams j with tok_open := true } := by
  unfold Engine.cmd_open
  dsimp only
  split
  · next hopen =>
    unfold Engine.set_stream
    rw [← hopen]
    simp
  · rfl

/-- What a status that does not look at `tok_open` becomes with an open buffer. -/
def Status.open_ : Status → Option Status
  | .ready | .opened | .sent => some .opened
  | .begun => some .begun
  | .gated => some .gated_open
  | .masked => some .masked_open
  | _ => none

theorem cmd_open_step {t' : Status} (h : Books s) (hj : StreamOk s j t) (ht : t.open_ = some t')
    (hact : s.act j .cmd_open = some s') : Step s s' j t' ∧ Calm s s' j t t' := by
  have hs' : s' = s.set_stream j { s.stream j with tok_open := true } := by
    cases hact
    rw [cmd_open_eq]
    rfl
  subst hs'
  have hcalm : ∀ {t' : Status}, t'.inside = t.inside →
      Calm s (s.set_stream j { s.stream j with tok_open := true }) j t t' :=
    fun hinside => set_calm rfl rfl rfl hinside
  -- no guard is touched: what the stage knows stays
  cases t with
  | ready =>
    cases ht
    refine ⟨set_step h rfl rfl rfl rfl ⟨?_, ?_⟩, hcalm rfl⟩
    · rw [stream_set_self]
    · rw [stream_set_self]
      rcases hj with ⟨hopen, hall⟩ | ⟨_, hin, hall⟩
      · exact .inl ⟨hopen, hall.set rfl rfl⟩
      · exact .inr ⟨hin, hall.set rfl⟩
  | opened =>
    cases ht
    refine ⟨set_step h rfl rfl rfl rfl ⟨?_, ?_⟩, hcalm rfl⟩
    · rw [stream_set_self]
    · rw [stream_set_self]
      rcases hj.2 with ⟨hopen, hall⟩ | ⟨hin, hall⟩
      · exact .inl ⟨hopen, hall.set rfl rfl⟩
      · exact .inr ⟨hin, hall.set rfl⟩
  | sent =>
    cases ht
    refine ⟨set_step h rfl rfl rfl rfl ⟨?_, ?_⟩, hcalm rfl⟩
    · rw [stream_set_self]
    · rw [stream_set_self]
      exact .inl ⟨hj.1, hj.2.set rfl rfl⟩
  | begun =>
    cases ht
    refine ⟨set_step h rfl rfl rfl rfl ⟨?_, ?_⟩, hcalm rfl⟩
    · rw [stream_set_self]
      exact hj.1
    · rw [stream_set_self]
      exact ⟨hj.2.1, hj.2.2.set rfl rfl⟩
  | gated =>
    cases ht
    refine ⟨set_step h rfl rfl rfl rfl ⟨hj.1.set rfl rfl rfl rfl, ?_, ?_⟩, hcalm rfl⟩
    · rw [stream_set_self]
      exact hj.2
    · rw [stream_set_self]
  | masked =>
    cases ht
    refine ⟨set_step h rfl rfl rfl rfl ⟨hj.1.set rfl rfl rfl rfl, ?_, ?_⟩, hcalm rfl⟩
    · rw [stream_set_self]
      exact hj.2
    · rw [stream_set_self]
  | waited => cases ht
  | unguarded => cases ht
  | gated_open => cases ht
  | masked_open => cases ht
  | recorded => cases ht

/-- Actions on fields that the status says nothing about. -/
theorem prologue_step (h : Books s) (hj : StreamOk s j .sent)
    (hact : s.act j .prologue = some s') : Step s s' j .sent ∧ Calm s s' j .sent .sent := by
  cases hact
  refine ⟨set_step h rfl rfl rfl rfl ⟨?_, ?_⟩, set_calm rfl rfl rfl rfl⟩
  · rw [stream_set_self]
    exact hj.1
  · rw [stream_set_self]
    exact hj.2.set rfl rfl

theorem layer_ctx_step (h : Books s) (hj : StreamOk s j .ready)
    (hact : s.act j .layer_ctx = some s') : Step s s' j .ready ∧ Calm s s' j .ready .ready := by
  cases hact
  refine ⟨set_step h rfl rfl rfl rfl ?_, set_calm rfl rfl rfl rfl⟩
  unfold StreamOk
  rw [stream_set_self]
  rcases hj with ⟨hopen, hall⟩ | ⟨htok, hin, hall⟩
  · exact .inl ⟨hopen, hall.set rfl rfl⟩
  · exact .inr ⟨htok, hin, hall.set rfl⟩

theorem note_gate_step (h : Books s) (hj : StreamOk s j .sent)
    (hact : s.act j .note_gate = some s') : Step s s' j .begun ∧ Calm s s' j .sent .begun := by
  cases hact
  refine ⟨set_step h rfl rfl rfl rfl ?_, set_calm rfl rfl rfl rfl⟩
  unfold StreamOk
  rw [stream_set_self]
  exact ⟨hj.1, Nat.le_refl _, hj.2.set rfl rfl⟩

theorem no_guard_step (h : Books s) (hj : StreamOk s j .waited)
    (hact : s.act j .no_guard = some s') :
    Step s s' j .unguarded ∧ Calm s s' j .waited .unguarded := by
  cases hact
  refine ⟨set_step h rfl rfl rfl rfl ⟨hj.set rfl rfl rfl, ?_⟩, set_calm rfl rfl rfl rfl⟩
  rw [stream_set_self]

/-! ### The guard moves to the open buffer -/

/-- Of a layer whose MoE is not recorded: only the masked routing does that. -/
theorem open_guard_masked (h : Books s) (hj : StreamOk s j .gated)
    (hact : s.act j .open_guard = some s') :
    Step s s' j .masked ∧ Calm s s' j .gated .masked := by
  cases hact
  have hlayer : (s.stream j).layer_guard ≤ s.engine.guard_clock :=
    (h.numbers _ _ hj.1.reading).2
  refine ⟨⟨set_books h rfl le_rfl ⟨hlayer, (h.fields j).2⟩, ⟨hj.1.set rfl rfl rfl rfl, ?_⟩,
    fun i hi => set_frame hi⟩, fun _ g r hlive => .inl ⟨rfl, r, set_live (by rfl) hlive⟩, fun hout => ?_⟩
  · rw [stream_set_self]
  · cases hout

theorem open_guard_recorded (h : Books s) (hj : StreamOk s j .recorded)
    (hact : s.act j .open_guard = some s') : Step s s' j .opened := by
  cases hact
  have hlayer : (s.stream j).layer_guard ≤ s.engine.guard_clock :=
    (h.numbers _ _ hj.1.reading).2
  refine ⟨set_books h rfl le_rfl ⟨hlayer, (h.fields j).2⟩, ⟨?_, .inr ⟨?_, ?_⟩⟩, fun i hi => set_frame hi⟩
  · rw [stream_set_self]
    exact hj.2
  · rw [stream_set_self]
    exact hj.1.inflight
  · rw [stream_set_self]
    exact hj.1.all.set rfl

/-! ### Submits -/

theorem sent_of_ne {readings : Nat → Option (Reading n)} {f : Nat} (hr : r.stream ≠ j) :
    State.sent readings j f g = some r ↔ readings g = some r := by
  unfold State.sent
  rw [Option.map_eq_some_iff]
  constructor
  · rintro ⟨r₀, hr₀, heq⟩
    split at heq
    · next hmine =>
      subst heq
      exact absurd hmine.1 hr
    · rw [hr₀, heq]
  · intro h
    exact ⟨r, h, if_neg fun hmine => hr hmine.1⟩

/-- The state after a submit of an open buffer. -/
def after_submit (s : State n) (j : Fin n) : State n :=
  { s with
    engine := s.engine.set_stream j (Engine.submitted (s.stream j))
    readings := State.sent s.readings j ((s.stream j).fence_value + 1) }

theorem cmd_submit_open (hopen : (s.stream j).tok_open = true) :
    s.act j .cmd_submit = some (after_submit s j) := by
  have hopen' : (s.engine.streams j).tok_open = true := hopen
  unfold State.act Engine.cmd_submit
  dsimp only
  rw [if_pos hopen, if_neg (by simp [hopen'])]
  rfl

theorem cmd_submit_closed (hopen : (s.stream j).tok_open = false) :
    s.act j .cmd_submit = some s := by
  have hopen' : (s.engine.streams j).tok_open = false := hopen
  unfold State.act Engine.cmd_submit
  dsimp only
  rw [if_pos (by simp [hopen']), if_neg (by simp [hopen])]

@[simp] theorem after_submit_self : (after_submit s j).stream j = Engine.submitted (s.stream j) :=
  Function.update_self ..

theorem after_submit_frame {i : Fin n} (hi : i ≠ j) : Frame s (after_submit s j) i := by
  have hsame : (after_submit s j).stream i = s.stream i := Function.update_of_ne hi ..
  refine ⟨by rw [hsame], by rw [hsame], fun g r hr => sent_of_ne ?_⟩
  rw [hr]
  exact hi

/-- A live reading after the submit: a recorded one is in flight, the others are as they were. -/
theorem after_submit_live (hlive : Live (after_submit s j) j g r) :
    ∃ r₀, Live s j g r₀ ∧
      ((r₀.reader = .recorded ∧ r.reader = .submitted ((s.stream j).fence_value + 1)) ∨
        (r₀.reader ≠ .recorded ∧ r = r₀)) := by
  obtain ⟨r₀, hr₀, heq⟩ := Option.map_eq_some_iff.mp hlive.reading
  by_cases hmine : r₀.stream = j ∧ r₀.reader = .recorded
  · rw [if_pos hmine] at heq
    refine ⟨r₀, ⟨hr₀, hmine.1, ?_⟩, .inl ⟨hmine.2, by rw [← heq]⟩⟩
    rintro ⟨f, hf, _⟩
    rw [hmine.2] at hf
    cases hf
  · rw [if_neg hmine] at heq
    subst heq
    refine ⟨r₀, ⟨hr₀, hlive.stream, ?_⟩, .inr ⟨fun hrec => hmine ⟨hlive.stream, hrec⟩, rfl⟩⟩
    rintro ⟨f, hreader, hf⟩
    refine hlive.pending ⟨f, hreader, ?_⟩
    rw [hlive.stream, after_submit_self, ← hlive.stream]
    exact hf

theorem after_submit_was_live {i : Fin n} (hlive : Live (after_submit s j) i g r) :
    ∃ r₀, Live s i g r₀ := by
  by_cases hi : i = j
  · subst hi
    obtain ⟨r₀, hold, _⟩ := after_submit_live hlive
    exact ⟨r₀, hold⟩
  · exact ⟨r, (after_submit_frame hi).live hlive⟩

theorem submitted_inflight (v : Stream) :
    (Engine.submitted v).inflight_guard = v.open_guard ∨
      (v.open_guard = 0 ∧ (Engine.submitted v).inflight_guard = v.inflight_guard) := by
  by_cases h : v.open_guard ≠ 0
  · exact .inl (if_pos h)
  · exact .inr ⟨not_not.mp h, if_neg h⟩

theorem after_submit_books (h : Books s) : Books (after_submit s j) := by
  refine h.keep rfl rfl rfl ?_ (fun i g r hl => after_submit_was_live hl) (fun i => ?_) (fun i => ?_)
  · intro g r hr
    obtain ⟨r₀, hr₀, _⟩ := Option.map_eq_some_iff.mp hr
    exact ⟨r₀, hr₀⟩
  · by_cases hi : i = j
    · subst hi
      rw [after_submit_self]
      refine ⟨Nat.zero_le _, ?_⟩
      rcases submitted_inflight (s.stream i) with heq | ⟨_, heq⟩
      · rw [heq]
        exact (h.fields i).1
      · rw [heq]
        exact (h.fields i).2
    · rw [(after_submit_frame hi).open_guard, (after_submit_frame hi).inflight_guard]
      exact h.fields i
  · by_cases hi : i = j
    · subst hi
      rw [after_submit_self]
      exact Nat.le_succ_of_le (h.fences i)
    · have hsame : (after_submit s j).stream i = s.stream i := Function.update_of_ne hi ..
      rw [hsame]
      exact h.fences i

theorem after_submit_calm {t' : Status} (hinside : t'.inside = t.inside) :
    Calm s (after_submit s j) j t t' := by
  refine ⟨fun hin _ _ hlive => ?_, fun hout => ⟨hinside ▸ hout, fun b hin hopen => ?_⟩⟩
  · obtain ⟨r₀, hold, _⟩ := after_submit_live hlive
    exact .inl ⟨hinside ▸ hin, r₀, hold⟩
  · rw [after_submit_self]
    have hzero : (Engine.submitted (s.stream j)).open_guard = 0 := rfl
    rcases submitted_inflight (s.stream j) with heq | ⟨_, heq⟩
    · omega
    · omega

/-- Readings in flight stay what they are. -/
theorem AllInflight.submit {last : Nat} (h : AllInflight s j last)
    (hopen : (s.stream j).open_guard = 0) : AllInflight (after_submit s j) j last := by
  intro g r hlive
  obtain ⟨r₀, hold, hreader⟩ := after_submit_live hlive
  obtain ⟨hg, f, hf, hlast⟩ := h g r₀ hold
  rcases hreader with ⟨hrec, _⟩ | ⟨_, rfl⟩
  · rw [hf] at hrec
    cases hrec
  · refine ⟨?_, f, hf, hlast⟩
    rw [after_submit_self, hg]
    exact (if_neg (not_not.mpr hopen)).symm

/-- The recorded buffer goes out. -/
theorem AllOpen.submit (h : AllOpen s j (s.stream j).open_guard .recorded)
    (hin : (s.stream j).inflight_guard = 0) :
    AllInflight (after_submit s j) j ((s.stream j).fence_value + 1) := by
  intro g r hlive
  obtain ⟨r₀, hold, hreader⟩ := after_submit_live hlive
  obtain ⟨hg, hrec⟩ := h g r₀ hold
  rcases hreader with ⟨_, hsub⟩ | ⟨hno, _⟩
  · refine ⟨?_, _, hsub, le_rfl⟩
    rw [after_submit_self, hg]
    rcases submitted_inflight (s.stream j) with heq | ⟨hzero, heq⟩
    · exact heq.symm
    · rw [heq, hin, hzero]
  · exact absurd hrec hno

theorem cmd_submit_opened (h : Books s) (hj : StreamOk s j .opened)
    (hact : s.act j .cmd_submit = some s') : Step s s' j .sent ∧ Calm s s' j .opened .sent := by
  rw [cmd_submit_open hj.1] at hact
  cases hact
  refine ⟨⟨after_submit_books h, ⟨?_, ?_⟩, fun i hi => after_submit_frame hi⟩, after_submit_calm rfl⟩
  · rw [after_submit_self]
    rfl
  · rw [after_submit_self]
    rcases hj.2 with ⟨hopen, hall⟩ | ⟨hin, hall⟩
    · intro g r hlive
      obtain ⟨hg, f, hf, hlast⟩ := hall.submit hopen g r hlive
      exact ⟨hg, f, hf, Nat.le_succ_of_le hlast⟩
    · exact hall.submit hin

theorem Frame.refl (s : State n) (i : Fin n) : Frame s s i := ⟨Nat.le_refl _, rfl, fun _ _ _ => Iff.rfl⟩

/-- A step that changes nothing. -/
theorem stay (h : Books s) (hj : StreamOk s j t) : Step s s j t ∧ Calm s s j t t :=
  ⟨⟨h, hj, fun i _ => .refl s i⟩, fun hin _ r hlive => .inl ⟨hin, r, hlive⟩,
    fun hout => ⟨hout, fun _ hin hopen => ⟨hin, hopen⟩⟩⟩

theorem cmd_submit_begun (h : Books s) (hj : StreamOk s j .begun)
    (hact : s.act j .cmd_submit = some s') : Step s s' j .begun ∧ Calm s s' j .begun .begun := by
  cases hopen : (s.stream j).tok_open with
  | false =>
    rw [cmd_submit_closed hopen] at hact
    cases hact
    exact stay h hj
  | true =>
    rw [cmd_submit_open hopen] at hact
    cases hact
    refine ⟨⟨after_submit_books h, ?_, fun i hi => after_submit_frame hi⟩, after_submit_calm rfl⟩
    unfold StreamOk
    rw [after_submit_self]
    exact ⟨rfl, Nat.le_succ_of_le hj.2.1, hj.2.2.submit hj.1⟩

theorem cmd_submit_gated (h : Books s) (hj : StreamOk s j .gated_open)
    (hact : s.act j .cmd_submit = some s') :
    Step s s' j .gated ∧ Calm s s' j .gated_open .gated := by
  rw [cmd_submit_open hj.2.2] at hact
  cases hact
  refine ⟨⟨after_submit_books h, ⟨⟨?_, ?_, ?_, ?_⟩, ?_⟩, fun i hi => after_submit_frame hi⟩,
    after_submit_calm rfl⟩
  · rw [after_submit_self]
    have hzero : (Engine.submitted (s.stream j)).inflight_guard = (s.stream j).inflight_guard :=
      if_neg (not_not.mpr hj.2.1)
    exact hzero.trans hj.1.inflight
  · rw [after_submit_self]
    exact hj.1.pending
  · rw [after_submit_self]
    show (s.readings (s.stream j).layer_guard).map _ = _
    rw [hj.1.reading]
    simp
  · rw [after_submit_self]
    intro g r hlive
    obtain ⟨r₀, hold, hreader⟩ := after_submit_live hlive
    obtain ⟨hg, hun⟩ := hj.1.all g r₀ hold
    rcases hreader with ⟨hrec, _⟩ | ⟨_, rfl⟩
    · rw [hun] at hrec
      cases hrec
    · exact ⟨hg, hun⟩
  · rw [after_submit_self]
    rfl

/-! ### The last reader is recorded -/

theorem record_moe_step {t : Status} (h : Books s) (hj : Numbered s j .unrecorded)
    (hopen : (s.stream j).tok_open = true) (ht : t.inside = true)
    (hact : s.act j .record_moe = some s') :
    Step s s' j .recorded ∧ Calm s s' j t .recorded := by
  cases hact
  let s' : State n :=
    { s with readings := Function.update s.readings (s.stream j).layer_guard (some ⟨j, .recorded⟩) }
  -- the one reading that changes was live
  have hwas : ∀ i g r, Live s' i g r →
      (i = j ∧ g = (s.stream j).layer_guard ∧ r = ⟨j, .recorded⟩ ∧ Live s j g ⟨j, .unrecorded⟩) ∨
        Live s i g r := by
    intro i g r hlive
    by_cases hg : g = (s.stream j).layer_guard
    · have hr : s'.readings g = some ⟨j, .recorded⟩ := by
        rw [hg]
        exact Function.update_self ..
      obtain rfl : (⟨j, .recorded⟩ : Reading n) = r :=
        Option.some.inj (hr.symm.trans hlive.reading)
      refine .inl ⟨hlive.stream.symm, hg, rfl, ⟨hg ▸ hj.reading, rfl, ?_⟩⟩
      rintro ⟨f, hf, _⟩
      cases hf
    · have hr : s'.readings g = s.readings g := Function.update_of_ne hg ..
      exact .inr ⟨hr ▸ hlive.reading, hlive.stream, hlive.pending⟩
  have hlive : ∀ i g r, Live s' i g r → ∃ r', Live s i g r' := by
    intro i g r hl
    rcases hwas i g r hl with ⟨rfl, _, _, hold⟩ | hold
    · exact ⟨_, hold⟩
    · exact ⟨r, hold⟩
  refine ⟨⟨?_, ⟨⟨hj.inflight, hj.pending, Function.update_self .., ?_⟩, hopen⟩, fun i hi => ?_⟩,
    fun _ g r hl => .inl ⟨ht, hlive j g r hl⟩, fun hout => absurd hout (by decide)⟩
  · refine h.keep rfl rfl rfl (fun g r hr => ?_) hlive h.fields h.fences
    by_cases hg : g = (s.stream j).layer_guard
    · exact ⟨_, hg ▸ hj.reading⟩
    · have hsame : s'.readings g = s.readings g := Function.update_of_ne hg ..
      exact ⟨r, hsame ▸ hr⟩
  · intro g r hl
    rcases hwas j g r hl with ⟨_, hg, rfl, _⟩ | hold
    · exact ⟨hg, rfl⟩
    · -- the other readings of the stream are not live
      obtain ⟨hg, _⟩ := hj.all g r hold
      have hr : s'.readings g = some ⟨j, .recorded⟩ := by
        rw [hg]
        exact Function.update_self ..
      obtain rfl : (⟨j, .recorded⟩ : Reading n) = r := Option.some.inj (hr.symm.trans hl.reading)
      exact ⟨hg, rfl⟩
  · refine ⟨Nat.le_refl _, rfl, fun g r hr => ?_⟩
    by_cases hg : g = (s.stream j).layer_guard
    · have hnew : s'.readings g = some ⟨j, .recorded⟩ := by
        rw [hg]
        exact Function.update_self ..
      have hold : s.readings g = some ⟨j, .unrecorded⟩ := hg ▸ hj.reading
      have hnot : ∀ {b : Reader}, (⟨j, b⟩ : Reading n) ≠ r := by
        rintro b rfl
        exact hi hr.symm
      show s'.readings g = some r ↔ s.readings g = some r
      rw [hnew, hold]
      exact ⟨fun heq => absurd (Option.some.inj heq) hnot, fun heq => absurd (Option.some.inj heq) hnot⟩
    · have hsame : s'.readings g = s.readings g := Function.update_of_ne hg ..
      show s'.readings g = some r ↔ s.readings g = some r
      rw [hsame]

/-! ### Guards on slots -/

/-- Store operations that keep the contents and put `guard` on a Resident slot of each key. -/
theorem guard_fold {f : ExpertStore → ExpertKey → ExpertStore} {guard : Nat}
    (hkeep : ∀ st key, Keep st (f st key))
    (hcompleted : ∀ st key, (f st key).completed_timeline = st.completed_timeline)
    (hguard : ∀ st key slot, Store.Inv st → st.index key = some slot →
      (st.slots slot).state = .Resident → Guarded (f st key) slot guard)
    (keys : List ExpertKey) {st : ExpertStore} (hinv : Store.Inv st) :
    Keep st (keys.foldl f st) ∧
      (keys.foldl f st).completed_timeline = st.completed_timeline ∧
      ∀ key ∈ keys, ∀ slot, st.index key = some slot → (st.slots slot).state = .Resident →
        Guarded (keys.foldl f st) slot guard := by
  induction keys generalizing st with
  | nil => exact ⟨.refl st, rfl, fun key hkey => absurd hkey List.not_mem_nil⟩
  | cons key keys ih =>
    have hk := hkeep st key
    obtain ⟨hrest, hdone, hall⟩ := ih (hk.inv hinv)
    refine ⟨hk.trans hrest, hdone.trans (hcompleted st key), fun key' hkey' slot hslot hres => ?_⟩
    rcases List.mem_cons.mp hkey' with rfl | hmem
    · exact (hrest.guarded (hguard st key' slot hinv hslot hres)).1
    · refine hall key' hmem slot ?_ ?_
      · rw [hk.index]
        exact hslot
      · rw [(hk.slots slot).state]
        exact hres

/-- The slots of `keys` are held under `guard`, and the store has the guards. -/
def hold (s : State n) (guard : Nat) (keys : List ExpertKey)
    (f : ExpertStore → ExpertKey → ExpertStore) : State n :=
  { s with
    engine := { s.engine with store := keys.foldl f s.engine.store }
    held := s.held ++ State.holds s.engine.store guard keys }

theorem mem_holds {st : ExpertStore} {guard : Nat} {keys : List ExpertKey} {k : Held}
    (hk : k ∈ State.holds st guard keys) :
    k.guard = guard ∧ k.key ∈ keys ∧ st.index k.key = some k.slot ∧
      (st.slots k.slot).state = .Resident := by
  unfold State.holds at hk
  obtain ⟨key, hmem, hkey⟩ := List.mem_filterMap.mp hk
  cases hi : st.index key with
  | none =>
    rw [hi] at hkey
    cases hkey
  | some slot =>
    rw [hi] at hkey
    dsimp only at hkey
    split at hkey
    · next hres =>
      cases hkey
      exact ⟨rfl, hmem, hi, hres⟩
    · cases hkey

theorem hold_frame (guard : Nat) (keys : List ExpertKey) (f : ExpertStore → ExpertKey → ExpertStore)
    (i : Fin n) : Frame s (hold s guard keys f) i := ⟨Nat.le_refl _, rfl, fun _ _ _ => Iff.rfl⟩

theorem hold_books {f : ExpertStore → ExpertKey → ExpertStore} {guard : Nat} (h : Books s)
    (hle : guard ≤ s.engine.guard_clock)
    (hkeep : ∀ st key, Keep st (f st key))
    (hcompleted : ∀ st key, (f st key).completed_timeline = st.completed_timeline)
    (hguard : ∀ st key slot, Store.Inv st → st.index key = some slot →
      (st.slots slot).state = .Resident → Guarded (f st key) slot guard)
    (keys : List ExpertKey) : Books (hold s guard keys f) := by
  obtain ⟨hall, hdone, hguards⟩ := guard_fold hkeep hcompleted hguard keys h.store
  have hlive : ∀ i g r, Live (hold s guard keys f) i g r → Live s i g r :=
    fun i g r hl => (hold_frame guard keys f i).live hl
  refine ⟨hall.inv h.store, hdone.trans_le h.completed, h.numbers, h.fields, h.fences,
    fun i g r hl => hdone.trans_lt (h.below i g r (hlive i g r hl)), fun k hk => ?_,
    fun i g r hl k hk hkg => ?_⟩
  · rcases List.mem_append.mp hk with hold' | hnew
    · exact h.held_numbers k hold'
    · rw [(mem_holds hnew).1]
      exact hle
  rcases List.mem_append.mp hk with hold' | hnew
  · obtain ⟨hg, hkey⟩ := h.held i g r (hlive i g r hl) k hold' hkg
    exact ⟨(hall.guarded hg).1, (hall.slots k.slot).key.trans hkey⟩
  · obtain ⟨hkguard, hmem, hindex, hres⟩ := mem_holds hnew
    refine ⟨?_, ?_⟩
    · rw [← hkg, hkguard]
      exact hguards k.key hmem k.slot hindex hres
    · exact (hall.slots k.slot).key.trans ((h.store.index k.key k.slot).mp hindex).2.2

theorem guard_slot_keep (guard : Nat) (st : ExpertStore) (key : ExpertKey) :
    Keep st (Engine.guard_slot st guard key) := by
  unfold Engine.guard_slot
  split
  · exact set_guard_keep st _ guard
  · exact .refl st

theorem guard_slot_completed (guard : Nat) (st : ExpertStore) (key : ExpertKey) :
    (Engine.guard_slot st guard key).completed_timeline = st.completed_timeline := by
  unfold Engine.guard_slot
  split
  · next slot _ =>
    show (st.apply (.set_guard slot guard)).completed_timeline = st.completed_timeline
    exact apply_completed st rfl (fun v heq => by cases heq)
  · rfl

theorem guard_slot_guarded (guard : Nat) (st : ExpertStore) (key : ExpertKey) (slot : Nat)
    (hinv : Store.Inv st) (hindex : st.index key = some slot)
    (hres : (st.slots slot).state = .Resident) :
    Guarded (Engine.guard_slot st guard key) slot guard := by
  unfold Engine.guard_slot
  rw [hindex]
  exact set_guard_guarded ((hinv.index key slot).mp hindex).1 hres

theorem lookup_completed (token guard : Nat) (st : ExpertStore) (key : ExpertKey) :
    (st.lookup key token guard).2.completed_timeline = st.completed_timeline := by
  show (st.apply (.lookup key token guard)).completed_timeline = st.completed_timeline
  exact apply_completed st rfl (fun v heq => by cases heq)

theorem lookup_resident_guarded (token guard : Nat) (st : ExpertStore) (key : ExpertKey) (slot : Nat)
    (hinv : Store.Inv st) (hindex : st.index key = some slot)
    (hres : (st.slots slot).state = .Resident) :
    Guarded (st.lookup key token guard).2 slot guard := by
  have hhit : ∃ addr, (st.lookup key token guard).1 = some addr := by
    unfold ExpertStore.lookup
    dsimp only
    rw [hindex]
    dsimp only
    rw [if_neg (not_not.mpr hres)]
    exact ⟨_, rfl⟩
  obtain ⟨addr, haddr⟩ := hhit
  obtain ⟨i, hi, hg⟩ := lookup_guarded hinv haddr
  obtain rfl : slot = i := Option.some.inj (hindex.symm.trans hi)
  exact hg

/-- The first guard of a layer: a new number. -/
def number (s : State n) (j : Fin n) : State n :=
  { s with
    engine := s.engine.number_layer j
    readings := Function.update s.readings (s.engine.guard_clock + 1) (some ⟨j, .unrecorded⟩) }

/-- A layer takes the next number of the guard clock. -/
theorem number_step (h : Books s) (hj : StreamOk s j .unguarded) :
    Step s (number s j) j .gated ∧ Calm s (number s j) j .unguarded .gated := by
  have hno : (s.engine.streams j).layer_guard_pending = false := hj.2
  let v : Stream :=
    { s.stream j with layer_guard := s.engine.guard_clock + 1, layer_guard_pending := true }
  have hengine : s.engine.number_layer j =
      { s.engine.set_stream j v with guard_clock := s.engine.guard_clock + 1 } := by
    unfold Engine.number_layer
    dsimp only
    rw [if_neg (by simp [hno])]
    rfl
  have hself : (number s j).stream j = v := by
    unfold number State.stream
    rw [hengine]
    exact Function.update_self ..
  have hother : ∀ i, i ≠ j → (number s j).stream i = s.stream i := by
    intro i hi
    unfold number State.stream
    rw [hengine]
    exact Function.update_of_ne hi ..
  have hclock : (number s j).engine.guard_clock = s.engine.guard_clock + 1 := by
    show (s.engine.number_layer j).guard_clock = _
    rw [hengine]
  have hstore : (number s j).engine.store = s.engine.store := by
    show (s.engine.number_layer j).store = _
    rw [hengine]
    rfl
  have hfence : ∀ i, ((number s j).stream i).fence = (s.stream i).fence := by
    intro i
    by_cases hi : i = j
    · subst hi
      rw [hself]
    · rw [hother i hi]
  -- the new number has no reading yet
  have hfresh : s.readings (s.engine.guard_clock + 1) = none := by
    cases hr : s.readings (s.engine.guard_clock + 1) with
    | none => rfl
    | some r =>
      have hle := (h.numbers _ r hr).2
      omega
  have hnew : (number s j).readings (s.engine.guard_clock + 1) = some ⟨j, .unrecorded⟩ :=
    Function.update_self ..
  have hold : ∀ g, g ≠ s.engine.guard_clock + 1 → (number s j).readings g = s.readings g :=
    fun g hg => Function.update_of_ne hg ..
  have hlive : ∀ i g r, Live (number s j) i g r →
      (i = j ∧ g = s.engine.guard_clock + 1 ∧ r = ⟨j, .unrecorded⟩) ∨ Live s i g r := by
    intro i g r hl
    by_cases hg : g = s.engine.guard_clock + 1
    · subst hg
      obtain rfl : (⟨j, .unrecorded⟩ : Reading n) = r :=
        Option.some.inj (hnew.symm.trans hl.reading)
      exact .inl ⟨hl.stream.symm, rfl, rfl⟩
    · refine .inr ⟨hold g hg ▸ hl.reading, hl.stream, fun hdone => hl.pending ?_⟩
      obtain ⟨f, hreader, hf⟩ := hdone
      exact ⟨f, hreader, (hfence r.stream).symm ▸ hf⟩
  have hcompleted := h.completed
  refine ⟨⟨?_, ⟨⟨?_, ?_, ?_, ?_⟩, ?_⟩, fun i hi => ?_⟩, fun _ g r hl => ?_, fun hout => absurd hout (by decide)⟩
  · constructor
    case store => exact hstore ▸ h.store
    case completed =>
      rw [hstore, hclock]
      omega
    case numbers =>
      intro g r hr
      rw [hclock]
      by_cases hg : g = s.engine.guard_clock + 1
      · omega
      · obtain ⟨hpos, hle⟩ := h.numbers g r (hold g hg ▸ hr)
        omega
    case fields =>
      intro i
      rw [hclock]
      obtain ⟨hop, hin⟩ := h.fields i
      by_cases hi : i = j
      · subst hi
        rw [hself]
        exact ⟨Nat.le_succ_of_le hop, Nat.le_succ_of_le hin⟩
      · rw [hother i hi]
        exact ⟨Nat.le_succ_of_le hop, Nat.le_succ_of_le hin⟩
    case fences =>
      intro i
      by_cases hi : i = j
      · subst hi
        rw [hself]
        exact h.fences i
      · rw [hother i hi]
        exact h.fences i
    case below =>
      intro i g r hl
      rw [hstore]
      rcases hlive i g r hl with ⟨_, hg, _⟩ | hl'
      · omega
      · exact h.below i g r hl'
    case held_numbers =>
      intro k hk
      rw [hclock]
      exact Nat.le_succ_of_le (h.held_numbers k hk)
    case held =>
      intro i g r hl k hk hkg
      rw [hstore]
      rcases hlive i g r hl with ⟨_, hg, _⟩ | hl'
      · -- no slot is held under a number that is not assigned
        have hle : k.guard ≤ s.engine.guard_clock := h.held_numbers k hk
        omega
      · exact h.held i g r hl' k hk hkg
  · rw [hself]
    exact hj.1.inflight
  · rw [hself]
  · rw [hself]
    exact hnew
  · rw [hself]
    intro g r hl
    rcases hlive j g r hl with ⟨_, hg, rfl⟩ | hl'
    · exact ⟨hg, rfl⟩
    · exact absurd hl' (hj.1.none_live g r)
  · rw [hself]
    exact hj.1.open_guard
  · refine ⟨(hfence i).ge, ?_, fun g r hr => ?_⟩
    · rw [hother i hi]
    · by_cases hg : g = s.engine.guard_clock + 1
      · subst hg
        rw [hnew, hfresh]
        constructor
        · intro heq
          cases heq
          exact absurd hr.symm hi
        · intro heq
          cases heq
      · rw [hold g hg]
  · rcases hlive j g r hl with ⟨_, hg, _⟩ | hl'
    · exact .inr (by omega)
    · exact absurd hl' (hj.1.none_live g r)

theorem guard_layer_pending (hpending : (s.stream j).layer_guard_pending = true)
    (keys : List ExpertKey) :
    s.act j (.guard_layer keys) = some (hold s (s.stream j).layer_guard keys
      fun st key => Engine.guard_slot st (s.stream j).layer_guard key) := by
  have hpending' : (s.engine.streams j).layer_guard_pending = true := hpending
  have hnumber : s.engine.number_layer j = s.engine := if_pos hpending'
  unfold State.act Engine.guard_layer
  dsimp only
  rw [hnumber, if_pos hpending]
  rfl

theorem guard_layer_fresh (hpending : (s.stream j).layer_guard_pending = false)
    (keys : List ExpertKey) :
    s.act j (.guard_layer keys) = some (hold (number s j) (s.engine.guard_clock + 1) keys
      fun st key => Engine.guard_slot st (s.engine.guard_clock + 1) key) := by
  have hpending' : (s.engine.streams j).layer_guard_pending = false := hpending
  have hlayer : ((s.engine.number_layer j).streams j).layer_guard = s.engine.guard_clock + 1 := by
    unfold Engine.number_layer
    dsimp only
    rw [if_neg (by simp [hpending'])]
    simp [Engine.set_stream]
  have hstore : (s.engine.number_layer j).store = s.engine.store := by
    unfold Engine.number_layer
    dsimp only
    rw [if_neg (by simp [hpending'])]
    rfl
  unfold State.act Engine.guard_layer hold number
  dsimp only
  rw [hlayer, hstore, if_neg (by simp [hpending])]

theorem hold_step {f : ExpertStore → ExpertKey → ExpertStore} {guard : Nat} (h : Books s)
    (hle : guard ≤ s.engine.guard_clock) (hkeep : ∀ st key, Keep st (f st key))
    (hcompleted : ∀ st key, (f st key).completed_timeline = st.completed_timeline)
    (hguard : ∀ st key slot, Store.Inv st → st.index key = some slot →
      (st.slots slot).state = .Resident → Guarded (f st key) slot guard)
    (keys : List ExpertKey) (hj : StreamOk s j t) :
    Step s (hold s guard keys f) j t ∧ Calm s (hold s guard keys f) j t t := by
  have hframe := hold_frame (s := s) guard keys f
  refine ⟨⟨hold_books h hle hkeep hcompleted hguard keys, (hframe j).ok hj, fun i _ => hframe i⟩,
    fun hin g r hl => .inl ⟨hin, r, (hframe j).live hl⟩, fun hout => ⟨hout, fun b hin hopen => ?_⟩⟩
  rw [(hframe j).inflight_guard, (hframe j).open_guard]
  exact ⟨hin, hopen⟩

theorem guard_slots_step (h : Books s) {guard : Nat} (hle : guard ≤ s.engine.guard_clock)
    (keys : List ExpertKey) (hj : StreamOk s j t) :
    Step s (hold s guard keys fun st key => Engine.guard_slot st guard key) j t ∧
      Calm s (hold s guard keys fun st key => Engine.guard_slot st guard key) j t t :=
  hold_step h hle (guard_slot_keep guard) (guard_slot_completed guard) (guard_slot_guarded guard)
    keys hj

theorem guard_layer_numbered {keys : List ExpertKey} {b : Reader} (h : Books s)
    (hj : StreamOk s j t) (hnum : Numbered s j b) (hact : s.act j (.guard_layer keys) = some s') :
    Step s s' j t ∧ Calm s s' j t t := by
  rw [guard_layer_pending hnum.pending] at hact
  cases hact
  exact guard_slots_step h (h.numbers _ _ hnum.reading).2 keys hj

theorem guard_layer_unguarded {keys : List ExpertKey} (h : Books s)
    (hj : StreamOk s j .unguarded) (hact : s.act j (.guard_layer keys) = some s') :
    Step s s' j .gated ∧ Calm s s' j .unguarded .gated := by
  obtain ⟨hstep, hcalm⟩ := number_step h hj
  have hlayer : s.engine.guard_clock + 1 ≤ (number s j).engine.guard_clock := by
    have hle := (hstep.books.numbers _ _ hstep.mine.1.reading).2
    have hnew : (number s j).readings (s.engine.guard_clock + 1) = some ⟨j, .unrecorded⟩ :=
      Function.update_self ..
    exact (hstep.books.numbers _ _ hnew).2
  rw [guard_layer_fresh hj.2] at hact
  cases hact
  obtain ⟨hhold, _⟩ := guard_slots_step hstep.books hlayer keys hstep.mine
  have hframe := hold_frame (s := number s j) (s.engine.guard_clock + 1) keys
    fun st key => Engine.guard_slot st (s.engine.guard_clock + 1) key
  refine ⟨⟨hhold.books, hhold.mine, fun i hi => ?_⟩, fun hin g r hl => ?_, fun hout => absurd hout (by decide)⟩
  · exact (hstep.others i hi).trans (hframe i)
  · exact hcalm.live hin g r ((hframe j).live hl)

theorem guard_hits_step {token : Nat} {keys : List ExpertKey} {b : Reader} (h : Books s)
    (hj : StreamOk s j t) (hnum : Numbered s j b)
    (hact : s.act j (.guard_hits token keys) = some s') : Step s s' j t ∧ Calm s s' j t t := by
  cases hact
  exact hold_step h (h.numbers _ _ hnum.reading).2 (fun st key => lookup_keep st key token _)
    (lookup_completed token _) (lookup_resident_guarded token _) keys hj

/-! ### Waits -/

/-- The fence value that a wait is for. -/
def wanted (s : State n) (j : Fin n) (target : Nat) : Nat :=
  if target ≠ 0 then target else (s.stream j).fence_value

/-- The engine after a wait that publishes. -/
def published (s : State n) (j : Fin n) : State n :=
  let e := s.engine.set_stream j { s.stream j with inflight_guard := 0 }
  { s with engine := e.advance_store_guard j (s.stream j).inflight_guard }

theorem cmd_wait_cases {target : Nat} {e : Engine n}
    (hwait : s.engine.cmd_wait j target = some e) :
    wanted s j target ≤ (s.stream j).fence ∧
      (((s.stream j).inflight_guard = 0 ∧ { s with engine := e } = s) ∨
        ((s.stream j).inflight_guard ≠ 0 ∧ { s with engine := e } = published s j)) := by
  have hsame : s.stream j = s.engine.streams j := rfl
  unfold Engine.cmd_wait at hwait
  dsimp only at hwait
  by_cases hfence : (s.engine.streams j).fence <
      (if target ≠ 0 then target else (s.engine.streams j).fence_value)
  · rw [if_pos hfence] at hwait
    cases hwait
  · rw [if_neg hfence] at hwait
    refine ⟨Nat.le_of_not_lt hfence, ?_⟩
    by_cases hin : (s.engine.streams j).inflight_guard ≠ 0
    · rw [if_pos hin] at hwait
      cases hwait
      exact .inr ⟨hin, rfl⟩
    · rw [if_neg hin] at hwait
      cases hwait
      exact .inl ⟨not_not.mp hin, rfl⟩

theorem clamp_le (safe v : Nat) : Engine.clamp safe v ≤ safe := by
  unfold Engine.clamp
  split
  · omega
  · exact Nat.le_refl _

theorem clamp_lt {safe v : Nat} (hv : 0 < v) : Engine.clamp safe v < v := by
  unfold Engine.clamp
  split
  · omega
  · omega

/-- What the loop over the streams does to `safe`. -/
theorem safe_fold (e : Engine n) (me : Fin n) (js : List (Fin n)) (mine : Nat) :
    js.foldl (fun safe j => if j = me then safe
        else Engine.clamp (Engine.clamp safe (e.streams j).open_guard) (e.streams j).inflight_guard)
      mine ≤ mine ∧
    ∀ i ∈ js, i ≠ me → ∀ g, 0 < g →
      g = (e.streams i).open_guard ∨ g = (e.streams i).inflight_guard →
      js.foldl (fun safe j => if j = me then safe
        else Engine.clamp (Engine.clamp safe (e.streams j).open_guard) (e.streams j).inflight_guard)
      mine < g := by
  induction js generalizing mine with
  | nil => exact ⟨Nat.le_refl _, fun i hi => absurd hi List.not_mem_nil⟩
  | cons j js ih =>
    rw [List.foldl_cons]
    set next := if j = me then mine
      else Engine.clamp (Engine.clamp mine (e.streams j).open_guard) (e.streams j).inflight_guard
      with hnext
    obtain ⟨hle, hlt⟩ := ih next
    have hnext_le : next ≤ mine := by
      rw [hnext]
      split
      · exact Nat.le_refl _
      · exact Nat.le_trans (clamp_le _ _) (clamp_le _ _)
    refine ⟨Nat.le_trans hle hnext_le, fun i hi hne g hg hfield => ?_⟩
    rcases List.mem_cons.mp hi with rfl | hmem
    · refine Nat.lt_of_le_of_lt hle ?_
      rw [hnext, if_neg hne]
      rcases hfield with rfl | rfl
      · exact Nat.lt_of_le_of_lt (clamp_le _ _) (clamp_lt hg)
      · exact clamp_lt hg
    · exact hlt i hmem hne g hg hfield

theorem safe_guard_le (e : Engine n) (me : Fin n) (mine : Nat) : e.safe_guard me mine ≤ mine :=
  (safe_fold e me _ mine).1

/-- A guard that another stream has open or in flight stays above what is published. -/
theorem safe_guard_lt (e : Engine n) {me i : Fin n} (hi : i ≠ me) {mine g : Nat} (hg : 0 < g)
    (hfield : g = (e.streams i).open_guard ∨ g = (e.streams i).inflight_guard) :
    e.safe_guard me mine < g :=
  (safe_fold e me _ mine).2 i (List.mem_finRange i) hi g hg hfield

section Publish

variable (hin : (s.stream j).inflight_guard ≠ 0)
include hin

theorem published_store : (published s j).engine.store =
    s.engine.store.set_completed_timeline
      ((s.engine.set_stream j { s.stream j with inflight_guard := 0 }).safe_guard j
        (s.stream j).inflight_guard) := by
  unfold published Engine.advance_store_guard
  dsimp only
  rw [if_neg hin]
  rfl

theorem published_streams : (published s j).engine.streams =
    (s.engine.set_stream j { s.stream j with inflight_guard := 0 }).streams := by
  unfold published Engine.advance_store_guard
  dsimp only
  rw [if_neg hin]

theorem published_clock : (published s j).engine.guard_clock = s.engine.guard_clock := by
  unfold published Engine.advance_store_guard
  dsimp only
  rw [if_neg hin]
  rfl

theorem published_self : (published s j).stream j = { s.stream j with inflight_guard := 0 } := by
  show (published s j).engine.streams j = _
  rw [published_streams hin]
  exact Function.update_self ..

theorem published_frame {i : Fin n} (hi : i ≠ j) : Frame s (published s j) i := by
  have hsame : (published s j).stream i = s.stream i := by
    show (published s j).engine.streams i = _
    rw [published_streams hin]
    exact Function.update_of_ne hi ..
  exact ⟨by rw [hsame], by rw [hsame], fun _ _ _ => Iff.rfl⟩

end Publish

theorem published_safe {i : Fin n} (hi : i ≠ j) (hg : 0 < g)
    (hfield : g = (s.stream i).open_guard ∨ g = (s.stream i).inflight_guard) :
    (s.engine.set_stream j { s.stream j with inflight_guard := 0 }).safe_guard j
      (s.stream j).inflight_guard < g := by
  refine safe_guard_lt _ hi hg ?_
  have hsame : (s.engine.set_stream j { s.stream j with inflight_guard := 0 }).streams i =
      s.stream i := Function.update_of_ne hi ..
  rw [hsame]
  exact hfield

/-- A wait behind which nothing of stream `j` is live. What it publishes is below every live guard:
    those of streams outside a layer are open or in flight, the others are ahead. -/
theorem published_step (h : Ok stat s) (hahead : Ahead stat s) (hout : (stat j).inside = false)
    (hin : (s.stream j).inflight_guard ≠ 0) (hopen : (s.stream j).open_guard = 0)
    (hdone : ∀ g r, ¬ Live s j g r) : Step s (published s j) j .waited := by
  have hframe : ∀ i, i ≠ j → Frame s (published s j) i := fun i hi => published_frame hin hi
  have hself := published_self hin
  have hstore := published_store hin
  set safe := (s.engine.set_stream j { s.stream j with inflight_guard := 0 }).safe_guard j
    (s.stream j).inflight_guard with hsafe
  have hsafe_le : safe ≤ (s.stream j).inflight_guard := safe_guard_le _ _ _
  have hfields := h.books.fields j
  have hlive : ∀ i g r, Live (published s j) i g r → i ≠ j ∧ Live s i g r := by
    intro i g r hl
    by_cases hi : i = j
    · subst hi
      refine absurd ⟨hl.reading, hl.stream, fun hd => hl.pending ?_⟩ (hdone g r)
      obtain ⟨f, hreader, hf⟩ := hd
      refine ⟨f, hreader, ?_⟩
      rw [hl.stream, hself]
      rw [hl.stream] at hf
      exact hf
    · exact ⟨hi, (hframe i hi).live hl⟩
  -- the number that is published is below every live guard
  have hbelow : ∀ i g r, i ≠ j → Live s i g r → safe < g := by
    intro i g r hi hl
    have hpos : 0 < g := (h.books.numbers g r hl.reading).1
    have hfield := fun hf => published_safe (s := s) (j := j) (g := g) hi hpos hf
    have hinside : (stat i).inside = true → safe < g := fun hins =>
      Nat.lt_of_le_of_lt hsafe_le (hahead i g r hl hins j hout).1
    have hok := h.streams i
    cases ht : stat i with
    | ready =>
      rw [ht] at hok
      rcases hok with ⟨_, hall⟩ | ⟨_, _, hall⟩
      · exact hfield (.inr (hall g r hl).1)
      · exact hfield (.inl (hall g r hl).1)
    | opened =>
      rw [ht] at hok
      rcases hok.2 with ⟨_, hall⟩ | ⟨_, hall⟩
      · exact hfield (.inr (hall g r hl).1)
      · exact hfield (.inl (hall g r hl).1)
    | sent =>
      rw [ht] at hok
      exact hfield (.inr (hok.2 g r hl).1)
    | begun =>
      rw [ht] at hok
      exact hfield (.inr (hok.2.2 g r hl).1)
    | waited => exact hinside (by rw [ht]; rfl)
    | unguarded => exact hinside (by rw [ht]; rfl)
    | gated => exact hinside (by rw [ht]; rfl)
    | gated_open => exact hinside (by rw [ht]; rfl)
    | masked => exact hinside (by rw [ht]; rfl)
    | masked_open => exact hinside (by rw [ht]; rfl)
    | recorded => exact hinside (by rw [ht]; rfl)
  have htimeline : (published s j).engine.store.completed_timeline =
      max s.engine.store.completed_timeline safe := by
    rw [hstore]
    unfold ExpertStore.set_completed_timeline
    split
    · next hgt => exact (max_eq_right (Nat.le_of_lt hgt)).symm
    · next hle => exact (max_eq_left (Nat.le_of_not_lt hle)).symm
  have hkeep : Keep s.engine.store (published s j).engine.store :=
    hstore ▸ set_completed_timeline_keep safe
  have hclock := published_clock hin
  refine ⟨⟨hkeep.inv h.books.store, ?_, ?_, fun i => ?_, fun i => ?_, fun i g r hl => ?_, ?_,
    fun i g r hl k hk hkg => ?_⟩, ⟨?_, ?_, fun g r hl => ?_⟩, hframe⟩
  · rw [htimeline, hclock]
    exact max_le h.books.completed (Nat.le_trans hsafe_le hfields.2)
  · rw [hclock]
    exact h.books.numbers
  · rw [hclock]
    by_cases hi : i = j
    · subst hi
      rw [hself]
      exact ⟨hfields.1, Nat.zero_le _⟩
    · rw [(hframe i hi).open_guard, (hframe i hi).inflight_guard]
      exact h.books.fields i
  · by_cases hi : i = j
    · subst hi
      rw [hself]
      exact h.books.fences i
    · have hf := (hframe i hi).fence_value
      have hsame : (published s j).stream i = s.stream i := by
        show (published s j).engine.streams i = _
        rw [published_streams hin]
        exact Function.update_of_ne hi ..
      rw [hsame]
      exact h.books.fences i
  · obtain ⟨hi, hold⟩ := hlive i g r hl
    rw [htimeline]
    exact max_lt (h.books.below i g r hold) (hbelow i g r hi hold)
  · rw [hclock]
    exact h.books.held_numbers
  · obtain ⟨hi, hold⟩ := hlive i g r hl
    obtain ⟨hg, hkey⟩ := h.books.held i g r hold k hk hkg
    exact ⟨(hkeep.guarded hg).1, (hkeep.slots k.slot).key.trans hkey⟩
  · rw [hself]
  · rw [hself]
    exact hopen
  · obtain ⟨hi, _⟩ := hlive j g r hl
    exact hi rfl

/-- A wait for a fence that covers everything in flight. -/
theorem wait_step {target last : Nat} {e : Engine n} (h : Ok stat s) (hahead : Ahead stat s)
    (hout : (stat j).inside = false) (hopen : (s.stream j).open_guard = 0)
    (hall : AllInflight s j last) (hlast : last ≤ wanted s j target)
    (hwait : s.engine.cmd_wait j target = some e) :
    Step s { s with engine := e } j .waited ∧ Calm s { s with engine := e } j (stat j) .waited := by
  obtain ⟨hfence, hcases⟩ := cmd_wait_cases hwait
  have hdone : ∀ g r, ¬ Live s j g r := by
    intro g r hl
    obtain ⟨_, f, hreader, hf⟩ := hall g r hl
    refine hl.pending ⟨f, hreader, ?_⟩
    rw [hl.stream]
    omega
  have hstep : Step s { s with engine := e } j .waited := by
    rcases hcases with ⟨hin, heq⟩ | ⟨hin, heq⟩
    · rw [heq]
      exact ⟨h.books, ⟨hin, hopen, hdone⟩, fun i _ => .refl s i⟩
    · rw [heq]
      exact published_step h hahead hout hin hopen hdone
  exact ⟨hstep, fun _ g r hl => absurd hl (hstep.mine.none_live g r), fun hno => absurd hno (by decide)⟩

theorem wait_gate_step (h : Ok stat s) (hahead : Ahead stat s) (hj : stat j = .begun)
    (hact : s.act j .wait_gate = some s') :
    Step s s' j .waited ∧ Calm s s' j (stat j) .waited := by
  have hok := h.streams j
  rw [hj] at hok
  obtain ⟨hopen, hgate, hall⟩ := hok
  obtain ⟨e, hwait, rfl⟩ := Option.map_eq_some_iff.mp hact
  refine wait_step h hahead (by rw [hj]; rfl) hopen hall ?_ hwait
  unfold wanted
  split
  · exact Nat.le_refl _
  · exact hgate

theorem cmd_wait_sent (h : Ok stat s) (hahead : Ahead stat s) (hj : stat j = .sent)
    (hact : s.act j .cmd_wait = some s') :
    Step s s' j .waited ∧ Calm s s' j (stat j) .waited := by
  have hok := h.streams j
  rw [hj] at hok
  obtain ⟨e, hwait, rfl⟩ := Option.map_eq_some_iff.mp hact
  exact wait_step h hahead (by rw [hj]; rfl) hok.1 hok.2 le_rfl hwait

theorem cmd_wait_inside {b : Reader} (h : Books s) (hj : StreamOk s j t) (hnum : Numbered s j b)
    (hact : s.act j .cmd_wait = some s') : Step s s' j t ∧ Calm s s' j t t := by
  obtain ⟨e, hwait, rfl⟩ := Option.map_eq_some_iff.mp hact
  obtain ⟨_, ⟨_, heq⟩ | ⟨hin, _⟩⟩ := cmd_wait_cases hwait
  · rw [heq]
    exact stay h hj
  · exact absurd hnum.inflight hin

/-! ### Any action -/

/-- The status behind an action; `none` where a schedule must not take it. -/
def Status.next : Status → Act → Option Status
  | .sent, .prologue => some .sent
  | .ready, .layer_ctx => some .ready
  | .sent, .note_gate => some .begun
  | t, .cmd_open => t.open_
  | .opened, .cmd_submit => some .sent
  | .begun, .cmd_submit => some .begun
  | .gated_open, .cmd_submit => some .gated
  | .begun, .wait_gate => some .waited
  | .sent, .cmd_wait => some .waited
  | .gated, .cmd_wait => some .gated
  | .masked, .cmd_wait => some .masked
  | .waited, .no_guard => some .unguarded
  | .unguarded, .guard_layer _ => some .gated
  | .gated, .guard_layer _ => some .gated
  | .masked, .guard_layer _ => some .masked
  | .masked, .guard_hits _ _ => some .masked
  | .gated_open, .record_moe => some .recorded
  | .masked_open, .record_moe => some .recorded
  | .gated, .open_guard => some .masked
  | .recorded, .open_guard => some .opened
  | _, _ => none

/-- Whether an action takes a wait that publishes. -/
def Status.publishes (t t' : Status) : Bool := !t.inside && t'.inside

/-- Whether an action ends a layer. -/
def Status.closes (t t' : Status) : Bool := t.inside && !t'.inside

/-- What a stream does in its phase keeps the books of all of them. -/
theorem act_step {a : Act} {t' : Status} (h : Ok stat s)
    (hnext : (stat j).next a = some t')
    (hahead : (stat j).publishes t' = true → Ahead stat s) (hact : s.act j a = some s') :
    Step s s' j t' ∧ ((stat j).closes t' = false → Calm s s' j (stat j) t') := by
  have hb := h.books
  have hok := h.streams j
  have hall : ∀ {t' : Status}, Step s s' j t' ∧ Calm s s' j (stat j) t' →
      Step s s' j t' ∧ ((stat j).closes t' = false → Calm s s' j (stat j) t') :=
    fun hpair => ⟨hpair.1, fun _ => hpair.2⟩
  -- one lemma for each action that a stage allows
  cases ht : stat j with
  | ready =>
    rw [ht] at hok hnext hall
    cases a with
    | layer_ctx =>
      cases hnext
      exact hall (layer_ctx_step hb hok hact)
    | cmd_open => exact hall (cmd_open_step hb hok hnext hact)
    | _ => cases hnext
  | opened =>
    rw [ht] at hok hnext hall
    cases a with
    | cmd_open => exact hall (cmd_open_step hb hok hnext hact)
    | cmd_submit =>
      cases hnext
      exact hall (cmd_submit_opened hb hok hact)
    | _ => cases hnext
  | sent =>
    rw [ht] at hok hnext hahead
    cases a with
    | prologue =>
      cases hnext
      rw [ht] at hall
      exact hall (prologue_step hb hok hact)
    | cmd_open =>
      rw [ht] at hall
      exact hall (cmd_open_step hb hok hnext hact)
    | note_gate =>
      cases hnext
      rw [ht] at hall
      exact hall (note_gate_step hb hok hact)
    | cmd_wait =>
      cases hnext
      have hwait := hall (cmd_wait_sent h (hahead rfl) ht hact)
      rw [ht] at hwait
      exact hwait
    | _ => cases hnext
  | begun =>
    rw [ht] at hok hnext hahead
    cases a with
    | cmd_open =>
      rw [ht] at hall
      exact hall (cmd_open_step hb hok hnext hact)
    | cmd_submit =>
      cases hnext
      rw [ht] at hall
      exact hall (cmd_submit_begun hb hok hact)
    | wait_gate =>
      cases hnext
      have hwait := hall (wait_gate_step h (hahead rfl) ht hact)
      rw [ht] at hwait
      exact hwait
    | _ => cases hnext
  | waited =>
    rw [ht] at hok hnext hall
    cases a with
    | no_guard =>
      cases hnext
      exact hall (no_guard_step hb hok hact)
    | _ => cases hnext
  | unguarded =>
    rw [ht] at hok hnext hall
    cases a with
    | guard_layer keys =>
      cases hnext
      exact hall (guard_layer_unguarded hb hok hact)
    | _ => cases hnext
  | gated =>
    rw [ht] at hok hnext hall
    cases a with
    | cmd_open => exact hall (cmd_open_step hb hok hnext hact)
    | cmd_wait =>
      cases hnext
      exact hall (cmd_wait_inside hb hok hok.1 hact)
    | guard_layer keys =>
      cases hnext
      exact hall (guard_layer_numbered hb hok hok.1 hact)
    | open_guard =>
      cases hnext
      exact hall (open_guard_masked hb hok hact)
    | _ => cases hnext
  | gated_open =>
    rw [ht] at hok hnext hall
    cases a with
    | cmd_submit =>
      cases hnext
      exact hall (cmd_submit_gated hb hok hact)
    | record_moe =>
      cases hnext
      exact hall (record_moe_step hb hok.1 hok.2.2 rfl hact)
    | _ => cases hnext
  | masked =>
    rw [ht] at hok hnext hall
    cases a with
    | cmd_open => exact hall (cmd_open_step hb hok hnext hact)
    | cmd_wait =>
      cases hnext
      exact hall (cmd_wait_inside hb hok hok.1 hact)
    | guard_layer keys =>
      cases hnext
      exact hall (guard_layer_numbered hb hok hok.1 hact)
    | guard_hits token keys =>
      cases hnext
      exact hall (guard_hits_step hb hok hok.1 hact)
    | _ => cases hnext
  | masked_open =>
    rw [ht] at hok hnext hall
    cases a with
    | record_moe =>
      cases hnext
      exact hall (record_moe_step hb hok.1 hok.2.2 rfl hact)
    | _ => cases hnext
  | recorded =>
    rw [ht] at hok hnext
    cases a with
    | open_guard =>
      cases hnext
      exact ⟨open_guard_recorded hb hok hact, fun hno => absurd hno (by decide)⟩
    | _ => cases hnext

end CachedMoe.Runtime.MultiStream
