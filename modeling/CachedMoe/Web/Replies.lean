import CachedMoe.Web.Serve
import Mathlib.Data.List.Basic
import Mathlib.Tactic.Tauto

/-! # Which reply an rpc gets

    The events carry no request, so the reader goes by what is open: a late reply of an rpc that
    timed out is taken by the next one, and an error that answers an rpc goes to the turn in
    flight when there is one. Without these two, and when no turn is left before its last event,
    every rpc gets the reply to its own request and every turn its own events.

    * `Matched`: what the threads rely on;
    * `Unmixed`: the steps that keep the streams apart;
    * `Inv`: the invariant of the runs of such steps. -/

namespace CachedMoe.Web

open LTS

namespace Serve

/-! ### The property -/

/-- The token, prefill, done and error events that were put into a turn's queue. -/
def received (s : Serve) (t : Nat) : List Event :=
  (s.queue t).filter fun ev => ev.kind.of_turns

/-- The lines the reader holds or has still to read. -/
def flying (s : Serve) : List Event :=
  (s.reader.map Prod.fst).toList ++ s.stdout

/-- The events of a turn that are on their way. -/
def pending (s : Serve) (t : Nat) : List Event :=
  s.flying.filter fun ev => ev.of_turn = some t

/-- Each `rpc` got the reply to its own request, and the queue of the turn in flight gets the
    events of that turn, in order. -/
structure Matched (s : Serve) : Prop where
  replies : ∀ p ∈ s.outcomes, p.2.answers = some p.1
  events : ∀ t, s.stream_q = some t → s.received t ++ s.pending t = s.emitted t

/-- No `rpc` times out, no error that answers an rpc is read while a turn is open, and no turn
    is left because its cancel cannot be written. -/
def Unmixed (s : Serve) : Act → Prop
  | .timeout => False
  | .lookup => s.stream_q = none ∨ ∀ ev ∈ s.stdout.head?, ev.kind = .error → ev.answers = none
  | .check_cancel cancelled => cancelled = true → s.closing = false
  | _ => True

/-! ### The invariant -/

/-- The generate requests the engine has not finished. -/
def generates (s : Serve) : List Nat := s.stdin.filterMap Request.generate?

/-- The requests whose reply is due, those with a reply in `rpc_q` first. -/
def due (s : Serve) : List Nat :=
  s.rpc_q.filterMap Event.answers ++
    (s.flying.filterMap Event.answers ++ s.stdin.filterMap Request.rpc?)

/-- A line in the reader's hand goes where it belongs. -/
def Routed (dead : Bool) (ev : Event) : Sink → Prop
  | .turn t => ev.answers = none ∧ ev.of_turn = if ev.kind.of_turns then some t else none
  | .rpc => ev.of_turn = none ∧ (ev.answers = none → dead = true)

structure Inv (s : Serve) : Prop where
  opened : s.stream_q = s.worker.turn
  numbered : ∀ t, s.worker.turn = some t → t < s.turns
  unborn : ∀ t, s.turns ≤ t → s.emitted t = []
  begun : s.dead = false → ∀ t, s.worker = .begun t → s.emitted t = []
  own : ∀ ev ∈ s.flying, ∀ t, ev.of_turn = some t → s.worker.active = some t
  routed : ∀ ev q, s.reader = some (ev, q) → Routed s.dead ev q
  /-- The engine has only the worker's turn, whose last event is to come. -/
  unfinished : s.dead = false → s.generates = [] ∨ ∃ t, s.generates = [t] ∧
    s.worker.active = some t ∧ ∀ ev ∈ s.emitted t, ev.kind.ends = false
  /-- A turn's last event ends it. -/
  last : s.dead = false → ∀ t xs ev ys, s.emitted t = xs ++ ev :: ys → ev.kind.ends = true →
    ys = []
  flow : ∀ t, s.received t ++ s.pending t = s.emitted t
  one_due : s.due = s.rpc_lock.toList
  /-- Only the exited engine leaves something else in `rpc_q`, and nobody waits for that. -/
  clean : s.dead = false → ∀ ev ∈ s.rpc_q, ev.answers ≠ none
  head : ∀ ev ∈ s.rpc_q.head?, ev.answers = none → s.rpc_lock = none
  running : .exit_error ∉ s.stdout
  silent : s.dead = true → s.stdout = [] ∧ s.stdin.filterMap Request.rpc? = [] ∧
    ∀ ev ∈ s.flying, ev.of_turn = none
  outcomes : ∀ p ∈ s.outcomes, p.2.answers = some p.1

variable {s s' : Serve}

theorem Inv.matched (h : Inv s) : Matched s where
  replies := h.outcomes
  events := fun t _ => h.flow t

theorem inv_init : Inv {} where
  opened := rfl
  numbered := fun t ht => by cases ht
  unborn := fun _ _ => rfl
  begun := fun _ _ _ => rfl
  own := fun ev hev => by cases hev
  routed := fun ev q hq => by cases hq
  unfinished := fun _ => .inl rfl
  last := fun _ t xs ev ys h => by simp at h
  flow := fun _ => rfl
  one_due := rfl
  clean := fun _ ev hev => by cases hev
  head := fun ev hev => by cases hev
  running := fun h => by cases h
  silent := fun h => by cases h
  outcomes := fun p hp => by cases hp

/-! #### The worker -/

theorem turn_of_active {w : Worker} {t : Nat} (h : w.active = some t) : w.turn = some t := by
  cases w <;> simp_all [Worker.active, Worker.turn]

theorem sends_eq : s.sends = true ↔ s.closing = false ∧ s.dead = false := by
  simp [sends]

/-- No event of a turn is on its way, and the engine has no turn. -/
def Idle (s : Serve) : Prop :=
  (∀ ev ∈ s.flying, ev.of_turn = none) ∧ (s.dead = false → s.generates = [])

theorem Inv.idle (h : Inv s) (hactive : s.worker.active = none) : Idle s := by
  refine ⟨fun ev hev => ?_, fun hdead => ?_⟩
  · cases ht : ev.of_turn with
    | none => rfl
    | some t => simp [h.own ev hev t ht] at hactive
  · rcases h.unfinished hdead with hnone | ⟨t, -, ht, -⟩
    · exact hnone
    · simp [ht] at hactive

/-- The worker goes on in its turn, or has nothing more to wait for. -/
theorem Inv.move (h : Inv s) {w : Worker} (hturn : w.turn = s.worker.turn)
    (hbegun : ∀ t, w ≠ .begun t) (hactive : w.active = s.worker.active ∨ Idle s) :
    Inv { s with worker := w } :=
  { h with
    opened := h.opened.trans hturn.symm
    numbered := fun t ht => h.numbered t (hturn.symm.trans ht)
    begun := fun _ t ht => absurd ht (hbegun t)
    own := fun ev hev t ht => by
      rcases hactive with heq | hidle
      · exact heq.trans (h.own ev hev t ht)
      · rw [hidle.1 ev hev] at ht
        cases ht
    unfinished := fun hdead => by
      rcases hactive with heq | hidle
      · exact (h.unfinished hdead).imp id fun ⟨t, hgen, ht, hmore⟩ => ⟨t, hgen, heq.trans ht, hmore⟩
      · exact .inl (hidle.2 hdead) }

/-- The last event of its turn is in the worker's hands. -/
theorem Inv.ended (h : Inv s) {t : Nat} (hactive : s.worker.active = some t) {ev : Event}
    (hev : ev ∈ s.queue t) (hends : ev.kind.ends = true) : Idle s := by
  cases hdead : s.dead with
  | true => exact ⟨(h.silent hdead).2.2, fun h => by simp [hdead] at h⟩
  | false =>
    have hkind : ev.kind.of_turns = true := by
      simp only [Kind.ends, Bool.or_eq_true] at hends
      simp only [Kind.of_turns, Bool.or_eq_true]
      tauto
    have hmem : ev ∈ s.received t := List.mem_filter.mpr ⟨hev, hkind⟩
    obtain ⟨xs, ys, hsplit⟩ := List.append_of_mem hmem
    have hall : s.emitted t = xs ++ ev :: (ys ++ s.pending t) := by
      rw [← h.flow t, hsplit, List.append_assoc, List.cons_append]
    have hnone : s.pending t = [] :=
      (List.append_eq_nil_iff.mp (h.last hdead t xs ev _ hall hends)).2
    refine ⟨fun ev' hev' => ?_, fun _ => ?_⟩
    · cases ht : ev'.of_turn with
      | none => rfl
      | some t' =>
        obtain rfl : t = t' := Option.some.inj (hactive.symm.trans (h.own ev' hev' t' ht))
        have hpending : ev' ∈ s.pending t := List.mem_filter.mpr ⟨hev', by simpa using ht⟩
        rw [hnone] at hpending
        cases hpending
    · -- a request still there would have no last event yet
      rcases h.unfinished hdead with hgen | ⟨t', -, ht', hno⟩
      · exact hgen
      · obtain rfl : t = t' := Option.some.inj (hactive.symm.trans ht')
        have := hno ev (by rw [hall]; simp)
        simp [hends] at this

theorem Inv.begin_turn (h : Inv s) (hidle : s.worker = .idle) : Inv s.begin_turn :=
  have hnone := h.idle (by rw [hidle]; rfl)
  { h with
    opened := rfl
    numbered := fun t ht => by
      obtain rfl : s.turns = t := Option.some.inj ht
      exact Nat.lt_succ_self _
    unborn := fun t ht => h.unborn t (Nat.le_of_succ_le ht)
    begun := fun _ t ht => by
      obtain rfl : s.turns = t := by simpa [Serve.begin_turn] using ht
      exact h.unborn _ (Nat.le_refl _)
    own := fun ev hev t ht => by
      rw [hnone.1 ev hev] at ht
      cases ht
    unfinished := fun hdead => .inl (hnone.2 hdead) }

theorem Inv.send_generate (h : Inv s) {t : Nat} (hworker : s.worker = .begun t)
    (hdead : s.dead = false) :
    Inv { s with stdin := s.stdin ++ [.generate t], worker := .sent t } :=
  have hnone := h.idle (by rw [hworker]; rfl)
  have hrpc : (s.stdin ++ [Request.generate t]).filterMap Request.rpc? =
      s.stdin.filterMap Request.rpc? := by
    simp [Request.rpc?]
  { h with
    opened := by rw [h.opened, hworker]; rfl
    numbered := fun t' ht => h.numbered t' (by rw [hworker]; exact ht)
    begun := fun _ t' ht => by cases ht
    own := fun ev hev t' ht => by
      rw [hnone.1 ev hev] at ht
      cases ht
    unfinished := fun _ => .inr ⟨t, by
      have hgen : s.generates = [] := hnone.2 hdead
      rw [generates] at hgen
      simp [generates, hgen, Request.generate?], rfl, by simp [h.begun hdead t hworker]⟩
    one_due := by
      have hdue := h.one_due
      simp only [due, flying] at hdue ⊢
      rw [hrpc]
      exact hdue
    silent := fun hyes => by simp [hdead] at hyes }

theorem Inv.end_turn (h : Inv s) (hend : may_end s.worker = true) :
    Inv { s with stream_q := none, worker := .idle } :=
  have hnone := h.idle (by
    cases hw : s.worker <;> rw [hw] at hend <;> first | rfl | cases hend)
  { h with
    opened := rfl
    numbered := fun t ht => by cases ht
    begun := fun _ t ht => by cases ht
    own := fun ev hev t ht => by
      rw [hnone.1 ev hev] at ht
      cases ht
    unfinished := fun hdead => .inl (hnone.2 hdead) }

/-! #### The rpcs -/

theorem Inv.rpc (h : Inv s) (hlock : s.rpc_lock = none) (hdead : s.dead = false) : Inv s.rpc :=
  { h with
    unfinished := fun hd => by
      have hgen : s.rpc.generates = s.generates := by
        simp [generates, Serve.rpc, Request.generate?]
      rw [hgen]
      exact h.unfinished hd
    one_due := by
      have hdue := h.one_due
      rw [hlock] at hdue
      simp only [due, flying, Option.toList_none, List.append_eq_nil_iff] at hdue
      obtain ⟨hq, hfly, hstdin⟩ := hdue
      simp only [due, flying, Serve.rpc]
      rw [hq, List.filterMap_append, List.filterMap_append, hstdin]
      simp only [List.filterMap_append, List.append_eq_nil_iff] at hfly
      simp [hfly.1, hfly.2, Request.rpc?]
    head := fun ev hev hno => absurd hno (h.clean hdead ev (List.mem_of_mem_head? hev))
    silent := fun hyes => by simp [Serve.rpc, hdead] at hyes }

/-- What `rpc` takes off `rpc_q` is the reply to its own request. -/
theorem Inv.get (h : Inv s) {n : Nat} {ev : Event} {rest : List Event}
    (hlock : s.rpc_lock = some n) (hq : s.rpc_q = ev :: rest) :
    Inv { s with rpc_lock := none, rpc_q := rest, outcomes := s.outcomes ++ [(n, ev)] } := by
  have hsome : ev.answers ≠ none := fun hno => by
    have := h.head ev (by rw [hq]; rfl) hno
    simp [hlock] at this
  obtain ⟨m, hm⟩ := Option.ne_none_iff_exists'.mp hsome
  have hdue := h.one_due
  rw [due, hq, List.filterMap_cons_some hm, hlock, Option.toList_some, List.cons_append] at hdue
  obtain ⟨rfl, hrest⟩ := List.cons.inj hdue
  exact { h with
    one_due := by
      simp only [due, flying] at hrest ⊢
      exact hrest
    clean := fun hdead ev' hev' => h.clean hdead ev' (by rw [hq]; exact .tail _ hev')
    head := fun _ _ _ => rfl
    outcomes := by
      intro p hp
      rcases List.mem_append.mp hp with hp | hp
      · exact h.outcomes p hp
      · obtain rfl := List.mem_singleton.mp hp
        exact hm }

/-! #### The reader -/

/-- Under `Unmixed` a line goes to its own turn's queue, to `rpc_q` or nowhere. -/
theorem Inv.sink (h : Inv s) {ev : Event} {rest : List Event} (hout : s.stdout = ev :: rest)
    (hok : s.Unmixed .lookup) :
    (∀ q, s.sink ev.kind = some q → Routed s.dead ev q) ∧
      (s.sink ev.kind = none → ev.of_turn = none ∧ ev.answers = none) := by
  have hmem : ev ∈ s.flying := by simp [flying, hout]
  have hopen : ∀ t, ev.of_turn = some t → s.stream_q = some t := fun t ht =>
    h.opened.trans (turn_of_active (h.own ev hmem t ht))
  have hclosed : ∀ n, ev = .rpc_error n → s.stream_q = none := by
    rintro n rfl
    refine hok.resolve_right fun hno => ?_
    have := hno (.rpc_error n) (by rw [hout]; rfl) rfl
    cases this
  cases ev with
  | token t | prefill t | done t | turn_error t =>
    simp only [Serve.sink, hopen t rfl, Event.kind]
    simp [Routed, Event.answers, Event.of_turn, Event.kind, Kind.of_turns]
  | session | cancel =>
    unfold Serve.sink
    cases s.stream_q <;> simp [Routed, Event.answers, Event.of_turn, Event.kind, Kind.of_turns]
  | reply n =>
    unfold Serve.sink
    cases s.stream_q <;> simp [Routed, Event.answers, Event.of_turn, Event.kind]
  | rpc_error n =>
    simp only [Serve.sink, hclosed n rfl, Event.kind]
    simp [Routed, Event.answers, Event.of_turn]
  | exit_error => exact absurd (by simp [hout]) h.running

theorem Inv.lookup (h : Inv s) {ev : Event} {rest : List Event} (hreader : s.reader = none)
    (hdead : s.dead = false) (hout : s.stdout = ev :: rest) (hok : s.Unmixed .lookup) :
    Inv { s with stdout := rest, reader := (s.sink ev.kind).map fun q => (ev, q) } := by
  obtain ⟨hsome, hnone⟩ := h.sink hout hok
  have hfly : s.flying = ev :: rest := by simp [flying, hreader, hout]
  have hrunning : Event.exit_error ∉ rest := fun hexit =>
    h.running (by rw [hout]; exact .tail _ hexit)
  cases hsink : s.sink ev.kind with
  | none =>
    -- a line that nobody waits on is dropped
    obtain ⟨hturn, hanswers⟩ := hnone hsink
    exact { h with
      own := fun ev' hev' => h.own ev' (by rw [hfly]; exact .tail _ hev')
      routed := fun ev' q hq => by cases hq
      flow := fun t => by
        have hflow := h.flow t
        rw [pending, hfly, List.filter_cons_of_neg (by simp [hturn])] at hflow
        exact hflow
      one_due := by
        have hdue := h.one_due
        rw [due, hfly, List.filterMap_cons_none hanswers] at hdue
        exact hdue
      running := hrunning
      silent := fun hyes => by simp [hdead] at hyes }
  | some q =>
    exact { h with
      own := fun ev' hev' => h.own ev' (by rw [hfly]; exact hev')
      routed := fun ev' q' hq => by
        cases hq
        exact hsome q hsink
      flow := fun t => by
        have hflow := h.flow t
        rw [pending, hfly] at hflow
        exact hflow
      one_due := by
        have hdue := h.one_due
        rw [due, hfly] at hdue
        exact hdue
      running := hrunning
      silent := fun hyes => by simp [hdead] at hyes }

/-- The reader delivers what it has looked up. -/
theorem Inv.put (h : Inv s) {ev : Event} {q : Sink} (hreader : s.reader = some (ev, q)) :
    Inv { s.put ev q with reader := none } := by
  have hrouted := h.routed ev q hreader
  have hfly : s.flying = ev :: s.stdout := by simp [flying, hreader]
  have hown : ∀ ev' ∈ s.stdout, ∀ t, ev'.of_turn = some t → s.worker.active = some t :=
    fun ev' hev' => h.own ev' (by rw [hfly]; exact .tail _ hev')
  have hsilent : s.dead = true → s.stdout = [] ∧ s.stdin.filterMap Request.rpc? = [] ∧
      ∀ ev' ∈ s.stdout, ev'.of_turn = none := fun hdead =>
    have ⟨hout, hstdin, hturn⟩ := h.silent hdead
    ⟨hout, hstdin, fun ev' hev' => hturn ev' (by rw [hfly]; exact .tail _ hev')⟩
  cases q with
  | turn t =>
    obtain ⟨hanswers, hturn⟩ := hrouted
    exact { h with
      own := hown
      routed := fun ev' q hq => by cases hq
      flow := fun t' => by
        have hflow := h.flow t'
        rw [pending, hfly] at hflow
        refine Eq.trans ?_ hflow
        by_cases ht : t' = t
        · subst ht
          cases hkind : ev.kind.of_turns with
          | true =>
            rw [hkind, if_pos rfl] at hturn
            simp [received, pending, flying, Serve.put, hkind, hturn]
          | false =>
            rw [hkind] at hturn
            simp [received, pending, flying, Serve.put, hkind, hturn]
        · have hne : ev.of_turn ≠ some t' := by
            rw [hturn]
            split
            · exact fun heq => ht (Option.some.inj heq).symm
            · exact fun heq => by cases heq
          simp [received, pending, flying, Serve.put, Function.update_of_ne ht, hne]
      one_due := by
        have hdue := h.one_due
        rw [due, hfly, List.filterMap_cons_none hanswers] at hdue
        exact hdue
      silent := hsilent }
  | rpc =>
    obtain ⟨hturn, hexit⟩ := hrouted
    exact { h with
      own := hown
      routed := fun ev' q hq => by cases hq
      flow := fun t => by
        have hflow := h.flow t
        rw [pending, hfly, List.filter_cons_of_neg (by simp [hturn])] at hflow
        exact hflow
      one_due := by
        have hdue := h.one_due
        rw [due, hfly] at hdue
        refine Eq.trans ?_ hdue
        simp only [due, flying, Serve.put, List.filterMap_append, Option.map_none,
          Option.toList_none,
          List.nil_append, List.append_assoc]
        cases hev : ev.answers <;> simp [hev]
      clean := fun hdead ev' hev' => by
        rcases List.mem_append.mp hev' with hev' | hev'
        · exact h.clean hdead ev' hev'
        · obtain rfl := List.mem_singleton.mp hev'
          intro hno
          have hsdead : s.dead = false := hdead
          simp [hexit hno] at hsdead
      head := fun ev' hev' hno => by
        cases hq : s.rpc_q with
        | cons ev₀ rest =>
          refine h.head ev' ?_ hno
          rw [hq]
          simpa [Serve.put, hq] using hev'
        | nil =>
          -- the exited engine has answered every request
          obtain rfl : ev = ev' := by simpa [Serve.put, hq] using hev'
          obtain ⟨hout, hstdin, -⟩ := h.silent (hexit hno)
          have hdue := h.one_due
          rw [due, hq, hfly, hout, hstdin, List.filterMap_cons_none hno] at hdue
          cases hlock : s.rpc_lock with
          | none => exact hlock
          | some n => simp [hlock] at hdue
      silent := hsilent }

theorem exits_none (h : s.stream_q = none) :
    s.exits = { s with dead := true, reader := some (.exit_error, .rpc) } := by
  simp only [Serve.exits, h]

theorem exits_some {t : Nat} (h : s.stream_q = some t) :
    s.exits = { s with
      dead := true
      reader := some (.exit_error, .rpc)
      queue := Function.update s.queue t (s.queue t ++ [.turn_error t])
      emitted := Function.update s.emitted t (s.emitted t ++ [.turn_error t]) } := by
  simp only [Serve.exits, h, Serve.put]

theorem Inv.exits (h : Inv s) (hreader : s.reader = none) (hout : s.stdout = [])
    (hstdin : s.stdin.filterMap Request.rpc? = []) : Inv s.exits := by
  have hfly : s.flying = [] := by simp [flying, hreader, hout]
  have hdue := h.one_due
  rw [due, hfly] at hdue
  have hsilent : s.stdout = [] ∧ s.stdin.filterMap Request.rpc? = [] ∧
      ∀ ev ∈ Event.exit_error :: s.stdout, ev.of_turn = none := by
    refine ⟨hout, hstdin, fun ev hev => ?_⟩
    rw [hout] at hev
    obtain rfl := List.mem_singleton.mp hev
    rfl
  have hrouted : ∀ ev q, some (Event.exit_error, Sink.rpc) = some (ev, q) → Routed true ev q := by
    intro ev q hq
    cases hq
    exact ⟨rfl, fun _ => rfl⟩
  -- a stream that is open gets the error and ends with it
  cases hstream : s.stream_q with
  | none =>
    rw [exits_none hstream]
    exact { h with
      begun := fun hno => by cases hno
      own := fun ev hev t ht => by
        rw [hsilent.2.2 ev hev] at ht
        cases ht
      routed := hrouted
      unfinished := fun hno => by cases hno
      last := fun hno => by cases hno
      flow := fun t => by
        have hflow := h.flow t
        rw [pending, hfly] at hflow
        refine Eq.trans ?_ hflow
        simp [received, pending, flying, hout, Event.of_turn]
      one_due := by
        refine Eq.trans ?_ hdue
        simp [due, flying, hout, Event.answers]
      clean := fun hno => by cases hno
      silent := fun _ => hsilent }
  | some t =>
    have hlt : t < s.turns := h.numbered t (by rw [← h.opened, hstream])
    rw [exits_some hstream]
    exact { h with
      unborn := fun t' ht => by
        have hne : t' ≠ t := Nat.ne_of_gt (Nat.lt_of_lt_of_le hlt ht)
        exact (Function.update_of_ne hne ..).trans (h.unborn t' ht)
      begun := fun hno => by cases hno
      own := fun ev hev t ht => by
        rw [hsilent.2.2 ev hev] at ht
        cases ht
      routed := hrouted
      unfinished := fun hno => by cases hno
      last := fun hno => by cases hno
      flow := fun t' => by
        have hflow := h.flow t'
        rw [pending, hfly] at hflow
        by_cases ht : t' = t
        · subst ht
          simp only [Function.update_self]
          rw [← hflow]
          simp [received, pending, flying, hout, Event.of_turn, Event.kind, Kind.of_turns]
        · simp only [Function.update_of_ne ht]
          refine Eq.trans ?_ hflow
          simp [received, pending, flying, hout, Event.of_turn, Function.update_of_ne ht]
      one_due := by
        refine Eq.trans ?_ hdue
        simp [due, flying, hout, Event.answers]
      clean := fun hno => by cases hno
      silent := fun _ => hsilent }

/-! #### The engine -/

theorem serving_eq {req : Request} (h : s.serving = some req) :
    s.dead = false ∧ ∃ rest, s.stdin = req :: rest := by
  unfold serving at h
  split at h
  · cases h
  · rename_i hdead
    exact ⟨by simpa using hdead, List.head?_eq_some_iff.mp h⟩

theorem flying_emit (ev : Event) : (s.emit ev).flying = s.flying ++ [ev] :=
  (List.append_assoc ..).symm

/-- An event of the turn the worker is at, or of none, may be emitted. -/
theorem Inv.own_emit (h : Inv s) {ev : Event}
    (hev : ∀ t, ev.of_turn = some t → s.worker.active = some t) :
    ∀ ev' ∈ (s.emit ev).flying, ∀ t, ev'.of_turn = some t → s.worker.active = some t := by
  intro ev' hev' t ht
  rw [flying_emit] at hev'
  rcases List.mem_append.mp hev' with hev' | hev'
  · exact h.own ev' hev' t ht
  · rw [List.mem_singleton.mp hev'] at ht
    exact hev t ht

/-- A line that no rpc and no turn counts. -/
theorem Inv.emit (h : Inv s) (hdead : s.dead = false) {ev : Event} (hturn : ev.of_turn = none)
    (hanswers : ev.answers = none) (hexit : ev ≠ .exit_error) : Inv (s.emit ev) :=
  { h with
    own := h.own_emit fun t ht => by
      rw [hturn] at ht
      cases ht
    flow := fun t => by
      refine Eq.trans ?_ (h.flow t)
      simp [received, pending, flying, Serve.emit, hturn]
    one_due := by
      refine Eq.trans ?_ h.one_due
      simp [due, flying, Serve.emit, hanswers]
    running := fun hmem => by
      rcases List.mem_append.mp hmem with hmem | hmem
      · exact h.running hmem
      · exact hexit (List.mem_singleton.mp hmem).symm
    silent := fun hyes => by simp [Serve.emit, hdead] at hyes }

theorem Inv.answer (h : Inv s) {n : Nat} (hserving : s.serving = some (.rpc n)) {ev : Event}
    (hturn : ev.of_turn = none) (hanswers : ev.answers = some n) (hexit : ev ≠ .exit_error) :
    Inv { s.emit ev with stdin := s.stdin.tail } := by
  obtain ⟨hdead, rest, hstdin⟩ := serving_eq hserving
  have htail : s.stdin.tail = rest := by rw [hstdin]; rfl
  rw [htail]
  exact { h with
    own := h.own_emit fun t ht => by
      rw [hturn] at ht
      cases ht
    unfinished := fun hd => by
      have hgen := h.unfinished hd
      rw [generates, hstdin] at hgen
      exact hgen
    flow := fun t => by
      refine Eq.trans ?_ (h.flow t)
      simp [received, pending, flying, Serve.emit, hturn]
    one_due := by
      have hdue := h.one_due
      rw [due, hstdin, List.filterMap_cons] at hdue
      refine Eq.trans ?_ hdue
      simp [due, flying, Serve.emit, hanswers, Request.rpc?]
    running := fun hmem => by
      rcases List.mem_append.mp hmem with hmem | hmem
      · exact h.running hmem
      · exact hexit (List.mem_singleton.mp hmem).symm
    silent := fun hyes => by simp [Serve.emit, hdead] at hyes }

theorem last_of_append {p : Event → Bool} {l xs ys : List Event} {ev ev' : Event}
    (hno : ∀ e ∈ l, p e = false) (h : l ++ [ev'] = xs ++ ev :: ys) (hp : p ev = true) :
    ys = [] := by
  rcases List.eq_nil_or_concat ys with hys | ⟨zs, z, hys⟩
  · exact hys
  · have hl : l = xs ++ ev :: zs := by
      rw [hys, List.concat_eq_append, ← List.cons_append, ← List.append_assoc] at h
      exact (List.append_inj' h rfl).1
    have := hno ev (by rw [hl]; simp)
    rw [hp] at this
    cases this

/-- An event of the turn the engine is at; the last one takes the request off. -/
theorem Inv.emit_turn (h : Inv s) {t : Nat} (hserving : s.serving = some (.generate t))
    {ev : Event} {stdin : List Request} (hturn : ev.of_turn = some t)
    (hanswers : ev.answers = none)
    (hstdin : stdin = if ev.kind.ends then s.stdin.tail else s.stdin) :
    Inv { s.emit_turn t ev with stdin := stdin } := by
  obtain ⟨hdead, rest, hhead⟩ := serving_eq hserving
  have htail : s.stdin.tail = rest := by rw [hhead]; rfl
  rw [htail] at hstdin
  have hgen : s.generates = t :: rest.filterMap Request.generate? := by
    rw [generates, hhead]
    rfl
  obtain ⟨hactive, hrest, hno⟩ : s.worker.active = some t ∧
      rest.filterMap Request.generate? = [] ∧
      ∀ ev ∈ s.emitted t, ev.kind.ends = false := by
    rcases h.unfinished hdead with hnil | ⟨t', hone, hactive, hno⟩
    · rw [hnil] at hgen
      cases hgen
    · rw [hone] at hgen
      obtain ⟨rfl, hnil⟩ := List.cons.inj hgen
      exact ⟨hactive, hnil.symm, hno⟩
  have hlt : t < s.turns := h.numbered t (turn_of_active hactive)
  have hrpc : stdin.filterMap Request.rpc? = s.stdin.filterMap Request.rpc? := by
    subst hstdin
    rw [hhead]
    split <;> rfl
  exact { h with
    unborn := fun t' ht => by
      have hne : t' ≠ t := Nat.ne_of_gt (Nat.lt_of_lt_of_le hlt ht)
      exact (Function.update_of_ne hne ..).trans (h.unborn t' ht)
    begun := fun _ t' hw => by
      have hw' : s.worker = .begun t' := hw
      rw [hw'] at hactive
      cases hactive
    own := h.own_emit fun t' ht => hactive.trans (hturn.symm.trans ht)
    -- the last event of a turn takes its request off the input
    unfinished := fun _ => by
      cases hends : ev.kind.ends with
      | true =>
        rw [hends, if_pos rfl] at hstdin
        exact .inl (by rw [generates, hstdin]; exact hrest)
      | false =>
        rw [hends] at hstdin
        refine .inr ⟨t, ?_, hactive, fun ev' hev' => ?_⟩
        · rw [generates, hstdin]
          exact hgen.trans (by rw [hrest])
        · have hemit : (s.emit_turn t ev).emitted t = s.emitted t ++ [ev] :=
            Function.update_self ..
          rcases List.mem_append.mp (hemit ▸ hev') with hev' | hev'
          · exact hno ev' hev'
          · rw [List.mem_singleton.mp hev', hends]
    last := fun hd t' xs ev' ys hsplit hends => by
      by_cases ht : t' = t
      · subst ht
        have hemit : (s.emit_turn t' ev).emitted t' = s.emitted t' ++ [ev] :=
          Function.update_self ..
        exact last_of_append (p := fun e => e.kind.ends) hno (hemit.symm.trans hsplit) hends
      · exact h.last hd t' xs ev' ys ((Function.update_of_ne ht ..).symm.trans hsplit) hends
    flow := fun t' => by
      have hflow := h.flow t'
      by_cases ht : t' = t
      · subst ht
        simp only [Serve.emit_turn, Function.update_self]
        rw [← hflow]
        simp [received, pending, flying, Serve.emit, hturn]
      · have hne : ev.of_turn ≠ some t' := fun heq => ht (Option.some.inj (heq.symm.trans hturn))
        simp only [Serve.emit_turn, Function.update_of_ne ht]
        rw [← hflow]
        simp [received, pending, flying, Serve.emit, hne]
    one_due := by
      refine Eq.trans ?_ h.one_due
      simp [due, flying, Serve.emit_turn, Serve.emit, hanswers, hrpc]
    running := fun hmem => by
      rcases List.mem_append.mp hmem with hmem | hmem
      · exact h.running hmem
      · rw [← List.mem_singleton.mp hmem] at hturn
        cases hturn
    silent := fun hyes => by simp [Serve.emit_turn, Serve.emit, hdead] at hyes }

/-! ### Steps -/

/-- Closing and cancelling touch no queue. -/
theorem Inv.aside (h : Inv s) (closing : Bool) (cancels : Nat) :
    Inv { s with closing := closing, cancels := cancels } :=
  { h with }

theorem resume_turn (w : Worker) : w.resume.turn = w.turn := by
  cases w <;> rfl

theorem resume_active (w : Worker) : w.resume.active = w.active := by
  cases w <;> rfl

theorem resume_begun {w : Worker} {t : Nat} (h : w.resume = .begun t) : w = .begun t := by
  cases w <;> first | exact h | cases h

/-- After its `rpc` a worker that was in `detokenize` leaves. -/
theorem Inv.resume (h : Inv s) : Inv { s with worker := s.worker.resume } :=
  { h with
    opened := h.opened.trans (resume_turn _).symm
    numbered := fun t ht => h.numbered t ((resume_turn _).symm.trans ht)
    begun := fun hdead t ht => h.begun hdead t (resume_begun ht)
    own := fun ev hev t ht => (resume_active _).trans (h.own ev hev t ht)
    unfinished := fun hdead => (h.unfinished hdead).imp id fun ⟨t, hgen, ht, hmore⟩ =>
      ⟨t, hgen, (resume_active _).trans ht, hmore⟩ }

theorem Inv.take (h : Inv s) {t taken : Nat} {ev : Event} (hworker : s.worker = .reading t taken)
    (hev : ev ∈ s.queue t) : Inv { s with worker := after t taken ev.kind } := by
  have hactive : s.worker.active = some t := by rw [hworker]; rfl
  have hturn : s.worker.turn = some t := by rw [hworker]; rfl
  cases hkind : ev.kind with
  | error =>
    exact h.move hturn.symm (fun _ heq => by cases heq)
      (.inr (h.ended hactive hev (by rw [hkind]; rfl)))
  | done =>
    exact h.move hturn.symm (fun _ heq => by cases heq)
      (.inr (h.ended hactive hev (by rw [hkind]; rfl)))
  | token | prefill | session | cancel | reply =>
    exact h.move hturn.symm (fun _ heq => by cases heq) (.inl hactive.symm)

/-- A step under `Unmixed` keeps the streams apart. -/
theorem Inv.step {a : Act} (h : Inv s) (hok : s.Unmixed a) (hstep : s.next a = some s') :
    Inv s' := by
  cases a with
  | call =>
    simp only [next, Option.ite_none_right_eq_some, Option.some.injEq] at hstep
    obtain ⟨hlock, rfl⟩ := hstep
    split
    · rename_i hsends
      exact h.rpc hlock (sends_eq.mp hsends).2
    · exact h
  | get =>
    simp only [next] at hstep
    split at hstep
    · rename_i n ev rest hlock hq
      obtain rfl := Option.some.inj hstep
      exact (h.get hlock hq).resume
    · cases hstep
  | timeout => exact hok.elim
  | begin_turn =>
    simp only [next, Option.ite_none_right_eq_some, Option.some.injEq] at hstep
    obtain ⟨hidle, rfl⟩ := hstep
    exact h.begin_turn hidle
  | send_generate =>
    simp only [next] at hstep
    split at hstep
    · rename_i t hworker
      split at hstep
      · rename_i hsends
        obtain rfl := Option.some.inj hstep
        exact h.send_generate hworker (sends_eq.mp hsends).2
      · obtain rfl := Option.some.inj hstep
        exact h.move (by rw [hworker]; rfl) (fun _ heq => by cases heq)
          (.inl (by rw [hworker]; rfl))
    · cases hstep
  | check_cancel cancelled =>
    simp only [next] at hstep
    split at hstep
    · rename_i t hworker
      have hturn : s.worker.turn = some t := by rw [hworker]; rfl
      split at hstep
      · -- the engine must have exited
        rename_i hraise
        obtain rfl := Option.some.inj hstep
        obtain ⟨rfl, hsends⟩ := Bool.and_eq_true_iff.mp hraise
        have hdead : s.dead = true := by
          simpa [sends, hok rfl] using hsends
        exact h.move hturn.symm (fun _ heq => by cases heq)
          (.inr ⟨(h.silent hdead).2.2, fun hno => by simp [hdead] at hno⟩)
      · obtain rfl := Option.some.inj hstep
        exact (h.move (w := .reading t 0) hturn.symm (fun _ heq => by cases heq)
          (.inl (by rw [hworker]; rfl))).aside s.closing _
    · cases hstep
  | take =>
    simp only [next] at hstep
    split at hstep
    · rename_i t taken hworker
      obtain ⟨ev, hev, rfl⟩ := Option.map_eq_some_iff.mp hstep
      exact h.take hworker (List.mem_of_getElem? hev)
    · cases hstep
  | detokenize =>
    simp only [next] at hstep
    split at hstep
    · rename_i t hworker
      simp only [Option.ite_none_right_eq_some, Option.some.injEq] at hstep
      obtain ⟨hlock, rfl⟩ := hstep
      have hturn : s.worker.turn = some t := by rw [hworker]; rfl
      have hactive : s.worker.active = none := by rw [hworker]; rfl
      split
      · rename_i hsends
        exact (h.rpc hlock (sends_eq.mp hsends).2).move hturn.symm (fun _ heq => by cases heq)
          (.inl hactive.symm)
      · exact h.move hturn.symm (fun _ heq => by cases heq) (.inl hactive.symm)
    · cases hstep
  | end_turn =>
    simp only [next, Option.ite_none_right_eq_some, Option.some.injEq] at hstep
    obtain ⟨hend, rfl⟩ := hstep
    exact h.end_turn hend
  | cancel =>
    simp only [next, Option.some.injEq] at hstep
    subst hstep
    split
    · exact h.aside _ _
    · exact h
  | close =>
    simp only [next, Option.some.injEq] at hstep
    subst hstep
    split
    · exact h
    · exact h.aside _ _
  | lookup =>
    simp only [next] at hstep
    split at hstep
    · rename_i ev rest hreader hdead hout
      obtain rfl := Option.some.inj hstep
      exact h.lookup hreader hdead hout hok
    · cases hstep
  | put =>
    simp only [next] at hstep
    split at hstep
    · rename_i ev q hreader
      obtain rfl := Option.some.inj hstep
      exact h.put hreader
    · cases hstep
  | exits =>
    simp only [next, Option.ite_none_right_eq_some, Option.some.injEq] at hstep
    obtain ⟨⟨hreader, -, hout, hstdin⟩, rfl⟩ := hstep
    exact h.exits hreader hout hstdin
  | switched =>
    simp only [next, Option.map_eq_some_iff] at hstep
    obtain ⟨req, hserving, rfl⟩ := hstep
    exact h.emit (serving_eq hserving).1 rfl rfl (fun heq => by cases heq)
  | prefill =>
    simp only [next] at hstep
    split at hstep
    · rename_i t hserving
      obtain rfl := Option.some.inj hstep
      exact h.emit_turn hserving rfl rfl rfl
    · cases hstep
  | token =>
    simp only [next] at hstep
    split at hstep
    · rename_i t hserving
      obtain rfl := Option.some.inj hstep
      exact h.emit_turn hserving rfl rfl rfl
    · cases hstep
  | finish ok =>
    simp only [next] at hstep
    split at hstep
    · rename_i t hserving
      obtain rfl := Option.some.inj hstep
      cases ok <;> exact h.emit_turn hserving rfl rfl rfl
    · cases hstep
  | answer ok =>
    simp only [next] at hstep
    split at hstep
    · rename_i n hserving
      obtain rfl := Option.some.inj hstep
      cases ok <;> exact h.answer hserving rfl rfl (fun heq => by cases heq)
    · cases hstep
  | ack =>
    simp only [next, Option.ite_none_right_eq_some, Option.some.injEq] at hstep
    obtain ⟨⟨hdead, -⟩, rfl⟩ := hstep
    exact (h.emit hdead rfl rfl (fun heq => by cases heq)).aside s.closing _

end Serve

/-! ### Runs -/

open Serve

/-- In every run whose steps are `Unmixed`, each rpc got its own reply and the turn in flight its
    own events. -/
theorem replies_matched {s : Serve} (h : Reachable (serve_system.restrict Unmixed) s) :
    Matched s := by
  refine (h.invariant (P := Inv) ?_ ?_).matched
  · rintro s rfl
    exact inv_init
  · rintro s a s' hinv ⟨hstep, hok⟩
    exact hinv.step hok hstep

instance (s : Serve) : (a : Act) → Decidable (s.Unmixed a)
  | .timeout => .isFalse id
  | .lookup => inferInstanceAs (Decidable (_ ∨ ∀ ev ∈ s.stdout.head?, _))
  | .check_cancel _ => inferInstanceAs (Decidable (_ → _))
  | .call | .get | .begin_turn | .send_generate | .take | .detokenize | .end_turn | .cancel
  | .close | .put | .exits | .switched | .prefill | .token | .finish _ | .answer _ | .ack =>
    .isTrue trivial

/-- A line from the engine to its queue. -/
def relayed : List Act := [.lookup, .put]

/-- A turn of one token, its text asked for while another thread asks for the status. -/
def one_turn : List Act :=
  [.call, .begin_turn, .send_generate, .check_cancel false, .answer true, .switched, .token] ++
    relayed ++ [.get] ++ relayed ++ relayed ++ [.finish true, .take, .take] ++ relayed ++
    [.take, .detokenize, .answer true] ++ relayed ++ [.get]

theorem replies_matched_turn :
    ∃ s, Matched s ∧ s.outcomes.length = 2 ∧ s.queue 0 = [.session, .token 0, .done 0] := by
  obtain ⟨s, hreach, hs⟩ : ∃ s, Reachable (serve_system.restrict Unmixed) s ∧
      decide (s.outcomes.length = 2 ∧ s.queue 0 = [.session, .token 0, .done 0]) = true :=
    Reachable.of_guarded next Unmixed one_turn _ rfl (by decide)
  exact ⟨s, replies_matched hreach, of_decide_eq_true hs⟩

/-- The reply of an rpc that timed out is taken by the next one. -/
def late_reply : List Act :=
  [.call, .timeout, .answer true, .call] ++ relayed ++ [.get]

/-- The error that answers an rpc goes to the turn that was opened meanwhile. -/
def stray_error : List Act :=
  [.call, .begin_turn, .answer false] ++ relayed

theorem late_reply_shifts :
    (∃ s, Reachable serve_system s ∧ ¬ Matched s ∧ s.outcomes = [(1, .reply 0)]) ∧
      ∃ s, Reachable serve_system s ∧ ¬ Matched s ∧ s.received 0 = [.rpc_error 0] := by
  constructor
  · obtain ⟨s, hreach, hs⟩ : ∃ s, Reachable serve_system s ∧
        decide (s.outcomes = [(1, .reply 0)]) = true :=
      Reachable.of_execute next late_reply _ rfl (by decide)
    have houtcomes : s.outcomes = [(1, .reply 0)] := of_decide_eq_true hs
    refine ⟨s, hreach, fun hmatched => ?_, houtcomes⟩
    have := hmatched.replies (1, .reply 0) (by rw [houtcomes]; exact .head _)
    cases this
  · obtain ⟨s, hreach, hs⟩ : ∃ s, Reachable serve_system s ∧
        decide (s.stream_q = some 0 ∧ s.received 0 = [.rpc_error 0] ∧ s.emitted 0 = []) = true :=
      Reachable.of_execute next stray_error _ rfl (by decide)
    obtain ⟨hstream, hreceived, hemitted⟩ := of_decide_eq_true hs
    refine ⟨s, hreach, fun hmatched => ?_, hreceived⟩
    have := hmatched.events 0 hstream
    rw [hreceived, hemitted] at this
    cases this

end CachedMoe.Web
