import CachedMoe.Framework.Attempt
import Mathlib.Logic.Function.Basic

/-! # Computations that leave a log

    `Emits log P m events a Q`: started in `P`, and as long as it keeps going, `m` appends `events`
    to the log and returns `a` in `Q`; where it gives up, it has appended a first part of them.
    With this a program is described by the list of its events, and what several parties do in
    turn can be told apart by projecting that list.

    Nothing here names a component of the runtime. -/

namespace Attempt

universe u v

variable {ε σ α β γ τ : Type u}

/-! ### Events of a computation -/

/-- The state a computation ends in, at either exit. -/
def final (m : EStateM ε σ α) (s : σ) : σ :=
  match m s with
  | .ok _ s' => s'
  | .error _ s' => s'

def finishes (m : EStateM ε σ α) (s : σ) : Bool :=
  match m s with
  | .ok _ _ => true
  | .error _ _ => false

def Emits (log : σ → List τ) (P : σ → Prop) (m : EStateM ε σ α) (events : List τ) (a : α)
    (Q : σ → Prop) : Prop :=
  ∀ s, P s →
    match m s with
    | .ok a' s' => Q s' ∧ a' = a ∧ log s' = log s ++ events
    | .error _ s' => ∃ part, part <+: events ∧ log s' = log s ++ part

variable {log : σ → List τ} {I P Q R : σ → Prop} {m : EStateM ε σ α} {events more : List τ} {a : α}
  {b : β}

theorem Emits.conseq {P' Q' : σ → Prop} (h : Emits log P m events a Q) (hP : ∀ s, P' s → P s)
    (hQ : ∀ s, Q s → Q' s) : Emits log P' m events a Q' := by
  intro s hs
  have hm := h s (hP s hs)
  cases hrun : m s with
  | ok a' s' =>
    rw [hrun] at hm
    exact ⟨hQ s' hm.1, hm.2⟩
  | error e s' =>
    rw [hrun] at hm
    exact hm

theorem Emits.of_eq (h : Emits log P m events a Q) (heq : events = more) : Emits log P m more a Q :=
  heq ▸ h

theorem Emits.pure : Emits log I (pure a : EStateM ε σ α) [] a I :=
  fun s hs => ⟨hs, rfl, (List.append_nil (log s)).symm⟩

theorem Emits.throw {e : ε} : Emits log P (throw e : EStateM ε σ α) events a Q :=
  fun s _ => ⟨[], List.nil_prefix, (List.append_nil (log s)).symm⟩

theorem Emits.bind {k : α → EStateM ε σ β} (h : Emits log P m events a Q)
    (hk : Emits log Q (k a) more b R) : Emits log P (m >>= k) (events ++ more) b R := by
  intro s hs
  have hm := h s hs
  have hbind : (m >>= k) s = EStateM.bind m k s := rfl
  rw [hbind, EStateM.bind]
  cases hrun : m s with
  | ok a' s' =>
    rw [hrun] at hm
    obtain ⟨hs', rfl, hlog⟩ := hm
    have hk' := hk s' hs'
    dsimp only
    cases hrun' : k a' s' with
    | ok b' s'' =>
      rw [hrun'] at hk'
      obtain ⟨hs'', rfl, hlog'⟩ := hk'
      exact ⟨hs'', rfl, by rw [hlog', hlog, List.append_assoc]⟩
    | error e s'' =>
      rw [hrun'] at hk'
      obtain ⟨part, hpart, hlog'⟩ := hk'
      exact ⟨events ++ part, (List.prefix_append_right_inj events).mpr hpart,
        by rw [hlog', hlog, List.append_assoc]⟩
  | error e s' =>
    rw [hrun] at hm
    obtain ⟨part, hpart, hlog⟩ := hm
    exact ⟨part, hpart.trans (List.prefix_append events more), hlog⟩

/-- Reading the state leaves it. -/
theorem get_bind_apply (k : σ → EStateM ε σ α) (s : σ) : (get >>= k) s = k s s :=
  rfl

/-- What follows may depend on the state that is read. -/
theorem Emits.get_bind {k : σ → EStateM ε σ α}
    (h : ∀ s, P s → Emits log (fun s' => s' = s) (k s) events a Q) :
    Emits log P (get >>= k) events a Q :=
  fun s hs => h s hs s rfl

theorem Emits.forM {f : γ → EStateM ε σ PUnit} {ev : γ → List τ} {l : List γ}
    (h : ∀ c ∈ l, Emits log I (f c) (ev c) ⟨⟩ I) : Emits log I (l.forM f) (l.flatMap ev) ⟨⟩ I := by
  induction l with
  | nil => exact .pure
  | cons c l ih =>
    exact (h c List.mem_cons_self).bind (ih fun c' hc' => h c' (List.mem_cons_of_mem c hc'))

/-- The exits of a computation whose events are known. -/
theorem Emits.log_final (h : Emits log P m events a Q) {s : σ} (hs : P s) :
    ∃ part, part <+: events ∧ log (final m s) = log s ++ part ∧
      (finishes m s = true → part = events) := by
  have hm := h s hs
  unfold final finishes
  cases hrun : m s with
  | ok a' s' =>
    rw [hrun] at hm
    exact ⟨events, List.prefix_rfl, hm.2.2, fun _ => rfl⟩
  | error e s' =>
    rw [hrun] at hm
    obtain ⟨part, hpart, hlog⟩ := hm
    exact ⟨part, hpart, hlog, fun hno => absurd hno Bool.false_ne_true⟩

/-! ### Loops that carry a value -/

/-- The events of a loop whose body emits `ev` and goes on with `step`. -/
@[grind =] def fold_events {γ : Type v} (step : β → γ → β) (ev : β → γ → List τ) : β → List γ → List τ
  | _, [] => []
  | b, c :: rest => ev b c ++ fold_events step ev (step b c) rest

theorem fold_events_append (step : β → γ → β) (ev : β → γ → List τ) (b : β) (l l' : List γ) :
    fold_events step ev b (l ++ l') =
      fold_events step ev b l ++ fold_events step ev (l.foldl step b) l' := by
  induction l generalizing b with
  | nil => rfl
  | cons c l ih =>
    rw [List.cons_append, fold_events, ih, fold_events, List.append_assoc, List.foldl_cons]

/-- A loop over the elements of other loops. -/
theorem fold_events_flatMap {δ : Type v} (step : β → γ → β) (ev : β → γ → List τ) (g : δ → List γ)
    (b : β) (l : List δ) :
    fold_events step ev b (l.flatMap g) =
      fold_events (fun b d => (g d).foldl step b) (fun b d => fold_events step ev b (g d)) b l := by
  induction l generalizing b with
  | nil => rfl
  | cons d l ih => rw [List.flatMap_cons, fold_events_append, ih, fold_events]

theorem fold_events_map {δ : Type u} (step : β → γ → β) (ev : β → γ → List τ) (f : τ → δ) (b : β)
    (l : List γ) :
    (fold_events step ev b l).map f = fold_events step (fun b c => (ev b c).map f) b l := by
  induction l generalizing b with
  | nil => rfl
  | cons c l ih => rw [fold_events, List.map_append, ih, fold_events]

theorem Emits.foldlM {f : β → γ → EStateM ε σ β} {step : β → γ → β} {ev : β → γ → List τ}
    (h : ∀ b c, Emits log I (f b c) (ev b c) (step b c) I) (b : β) (l : List γ) :
    Emits log I (l.foldlM f b) (fold_events step ev b l) (l.foldl step b) I := by
  induction l generalizing b with
  | nil => exact .pure
  | cons c l ih => exact (h b c).bind (ih (step b c))

/-! ### Computations that do not give up

    `Emits` leaves open whether the end is reached; `Ends I m` says that it is. -/

/-- Started in `I`, `m` runs to its end and leaves `I`. -/
def Ends (I : σ → Prop) (m : EStateM ε σ α) : Prop :=
  ∀ s, I s → ∃ a s', m s = .ok a s' ∧ I s'

theorem Ends.pure : Ends I (pure a : EStateM ε σ α) := fun s hs => ⟨a, s, rfl, hs⟩

theorem Ends.bind {k : α → EStateM ε σ β} (h : Ends I m) (hk : ∀ a, Ends I (k a)) :
    Ends I (m >>= k) := by
  intro s hs
  obtain ⟨a, s', hrun, hs'⟩ := h s hs
  obtain ⟨b, s'', hrun', hs''⟩ := hk a s' hs'
  refine ⟨b, s'', ?_, hs''⟩
  show EStateM.bind m k s = _
  rw [EStateM.bind, hrun]
  exact hrun'

/-- What follows a look at the state may rely on `I`. -/
theorem Ends.get_bind {k : σ → EStateM ε σ α} (h : ∀ s, I s → Ends I (k s)) :
    Ends I (get >>= k) :=
  fun s hs => h s hs s hs

theorem Ends.forM {f : γ → EStateM ε σ PUnit} {l : List γ} (h : ∀ c ∈ l, Ends I (f c)) :
    Ends I (l.forM f) := by
  induction l with
  | nil => exact .pure
  | cons c l ih =>
    exact (h c List.mem_cons_self).bind fun _ => ih fun c' hc' => h c' (List.mem_cons_of_mem c hc')

theorem Ends.foldlM {f : β → γ → EStateM ε σ β} (h : ∀ b c, Ends I (f b c)) (b : β) (l : List γ) :
    Ends I (l.foldlM f b) := by
  induction l generalizing b with
  | nil => exact .pure
  | cons c l ih => exact (h b c).bind ih

theorem Ends.finishes (h : Ends I m) {s : σ} (hs : I s) : finishes m s = true := by
  obtain ⟨a, s', hrun, -⟩ := h s hs
  rw [Attempt.finishes, hrun]

/-! ### Parties that take turns

    Every element of an interleaving belongs to a party, and is a step of that party's own value. -/

section Turns

variable {ι : Type u}

/-- What party `i` does. -/
def project [DecidableEq ι] (i : ι) (l : List (ι × γ)) : List γ :=
  (l.filter fun c => c.1 = i).map Prod.snd

section Project

variable [DecidableEq ι] {i : ι}

theorem project_cons_self (c : γ) (l : List (ι × γ)) :
    project i ((i, c) :: l) = c :: project i l := by
  rw [project, List.filter_cons_of_pos (by simp)]
  rfl

theorem project_cons_other {j : ι} (hj : j ≠ i) (c : γ) (l : List (ι × γ)) :
    project i ((j, c) :: l) = project i l := by
  rw [project, List.filter_cons_of_neg (by simpa using hj)]
  rfl

theorem project_singleton (j : ι) (c : γ) : project i [(j, c)] = if j = i then [c] else [] := by
  by_cases hj : j = i
  · rw [if_pos hj, hj, project_cons_self]
    rfl
  · rw [if_neg hj, project_cons_other hj]
    rfl

theorem project_append (l l' : List (ι × γ)) :
    project i (l ++ l') = project i l ++ project i l' := by
  rw [project, List.filter_append, List.map_append]
  rfl

theorem project_flatMap {α : Type v} (l : List α) (f : α → List (ι × γ)) :
    project i (l.flatMap f) = l.flatMap fun a => project i (f a) := by
  induction l with
  | nil => rfl
  | cons a l ih => rw [List.flatMap_cons, project_append, ih, List.flatMap_cons]

theorem project_prefix {l l' : List (ι × γ)} (h : l <+: l') : project i l <+: project i l' := by
  obtain ⟨rest, rfl⟩ := h
  exact ⟨project i rest, (project_append l rest).symm⟩

theorem project_same (j : ι) (l : List γ) :
    project i (l.map fun c => (j, c)) = if j = i then l else [] := by
  induction l with
  | nil => rw [ite_self]; rfl
  | cons c l ih =>
    rw [List.map_cons]
    by_cases hj : j = i
    · subst hj
      rw [project_cons_self, ih, if_pos rfl, if_pos rfl]
    · rw [project_cons_other hj, ih, if_neg hj, if_neg hj]

/-- A loop in which every party has one element of its own. -/
theorem project_each {α : Type v} {key : α → ι} {f : α → List γ} {l : List α}
    (hl : (l.map key).Nodup) {a : α} (ha : a ∈ l) :
    project (key a) (l.flatMap fun x => (f x).map fun c => (key x, c)) = f a := by
  rw [project_flatMap]
  simp only [project_same]
  induction l with
  | nil => exact absurd ha List.not_mem_nil
  | cons x l ih =>
    obtain ⟨hx, hl⟩ := List.nodup_cons.mp hl
    rw [List.flatMap_cons]
    rcases List.mem_cons.mp ha with rfl | ha
    · have hrest : (l.flatMap fun x => if key x = key a then f x else []) = [] := by
        refine List.flatMap_eq_nil_iff.mpr fun y hy => if_neg fun heq => hx ?_
        rw [← heq]
        exact List.mem_map_of_mem hy
      rw [if_pos rfl, hrest, List.append_nil]
    · have hne : key x ≠ key a := fun heq => hx (heq ▸ List.mem_map_of_mem ha)
      rw [if_neg hne, List.nil_append, ih hl ha]

/-- The projection of one element for every party of a list without repetitions. -/
theorem project_map {js : List ι} (hjs : js.Nodup) (c : ι → γ) :
    project i (js.map fun j => (j, c j)) = if i ∈ js then [c i] else [] := by
  induction js with
  | nil => rfl
  | cons j js ih =>
    obtain ⟨hj, hjs⟩ := List.nodup_cons.mp hjs
    rw [List.map_cons]
    by_cases hji : j = i
    · subst hji
      rw [project_cons_self, ih hjs, if_neg hj, if_pos List.mem_cons_self]
    · rw [project_cons_other hji, ih hjs]
      simp only [List.mem_cons, Ne.symm hji, false_or]

/-- A party takes a step. -/
def turn (step : ι → β → γ → β) (b : ι → β) (c : ι × γ) : ι → β :=
  Function.update b c.1 (step c.1 (b c.1) c.2)

/-- The event of a turn, under the name of its party. -/
def turn_event {κ : Type u} (key : ι → κ) (ev : ι → β → γ → τ) (b : ι → β) (c : ι × γ) :
    List (κ × τ) :=
  [(key c.1, ev c.1 (b c.1) c.2)]

/-- A party's part of an interleaving is what it would do alone. -/
theorem project_turns {κ : Type u} [DecidableEq κ] {key : ι → κ} {step : ι → β → γ → β}
    {ev : ι → β → γ → τ} {l : List (ι × γ)} (hkey : ∀ c ∈ l, key c.1 = key i → c.1 = i)
    (b : ι → β) :
    project (key i) (fold_events (turn step) (turn_event key ev) b l) =
      fold_events (step i) (fun b c => [ev i b c]) (b i) (project i l) := by
  induction l generalizing b with
  | nil => rfl
  | cons c l ih =>
    obtain ⟨j, c⟩ := c
    have ih := ih (fun c' hc' => hkey c' (List.mem_cons_of_mem _ hc')) (turn step b (j, c))
    rw [fold_events, turn_event, List.singleton_append]
    by_cases hj : j = i
    · subst hj
      rw [project_cons_self, project_cons_self, ih, fold_events, List.singleton_append, turn,
        Function.update_self]
    · have hother : key j ≠ key i := fun heq => hj (hkey (j, c) List.mem_cons_self heq)
      rw [project_cons_other hother, project_cons_other hj, ih, turn,
        Function.update_of_ne (Ne.symm hj)]

end Project

end Turns

end Attempt
