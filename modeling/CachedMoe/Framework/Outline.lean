import CachedMoe.Framework.System

/-! # Proof outlines

    A program whose actions are taken in order while an environment moves in between. An outline
    puts an assertion in front of every action; where the environment keeps each assertion, every
    state that a run passes through meets the assertion it stands at. -/

namespace LTS

universe u v w x

variable {State : Type u} {Action : Type v} {Event : Type w}

/-- The actions of a program and of its environment; `none` means not enabled. -/
structure Machine (State : Type u) (Action : Type v) (Event : Type w) where
  act : State → Action → Option State
  env : State → Event → Option State

namespace Machine

/-- The next action of the program, or an event of the environment. -/
def next (m : Machine State Action Event) :
    List Action × State → Option Event → Option (List Action × State)
  | ([], _), none => none
  | (a :: rest, s), none => (m.act s a).map fun s' => (rest, s')
  | (todo, s), some ev => (m.env s ev).map fun s' => (todo, s')

/-- The runs of `program` from the states that meet `start`. -/
def running (m : Machine State Action Event) (start : State → Prop) (program : List Action) :
    System (List Action × State) (Option Event) :=
  .ofNext (fun c => c.1 = program ∧ start c.2) m.next

/-- The environment keeps `P`, and `P` is safe. -/
structure Keeps (m : Machine State Action Event) (Safe P : State → Prop) : Prop where
  stable : ∀ s ev s', P s → m.env s ev = some s' → P s'
  safe : ∀ s, P s → Safe s

/-- An outline of a program: `P` in front of it and `Q` behind it. -/
inductive Outline (m : Machine State Action Event) (Safe : State → Prop) :
    (State → Prop) → List Action → (State → Prop) → Prop where
  | done {P : State → Prop} : m.Keeps Safe P → Outline m Safe P [] P
  | act {P M Q : State → Prop} {a : Action} {rest : List Action} :
      m.Keeps Safe P → (∀ s s', P s → m.act s a = some s' → M s') →
      Outline m Safe M rest Q → Outline m Safe P (a :: rest) Q
  | weaken {P P' Q : State → Prop} {program : List Action} :
      (∀ s, P s → P' s) → Outline m Safe P' program Q → Outline m Safe P program Q

variable {m : Machine State Action Event} {Safe : State → Prop}

namespace Outline

variable {P Q R : State → Prop} {program more : List Action}

theorem append (h : Outline m Safe P program Q) (h' : Outline m Safe Q more R) :
    Outline m Safe P (program ++ more) R := by
  induction h with
  | done _ => exact h'
  | act hkeeps hact _ ih => exact .act hkeeps hact (ih h')
  | weaken hpre _ ih => exact .weaken hpre (ih h')

theorem post {Q' : State → Prop} (hkeeps : m.Keeps Safe Q') (hpost : ∀ s, Q s → Q' s)
    (h : Outline m Safe P program Q) : Outline m Safe P program Q' := by
  induction h with
  | done _ => exact .weaken hpost (.done hkeeps)
  | act hk hact _ ih => exact .act hk hact (ih hpost)
  | weaken hpre _ ih => exact .weaken hpre (ih hpost)

/-- The loop rule; `I` names what is still to be done. -/
theorem flatMap {β : Type x} {body : β → List Action} {I : List β → State → Prop} {xs : List β}
    (hend : m.Keeps Safe (I []))
    (hbody : ∀ done b rest, xs = done ++ b :: rest → Outline m Safe (I (b :: rest)) (body b) (I rest)) :
    Outline m Safe (I xs) (xs.flatMap body) (I []) := by
  induction xs with
  | nil => exact .done hend
  | cons b rest ih =>
    refine (hbody [] b rest rfl).append (ih fun done b' rest' heq => ?_)
    exact hbody (b :: done) b' rest' (by rw [heq]; rfl)

/-- An outline holds where the rest of the program starts. -/
def Holds (m : Machine State Action Event) (Safe : State → Prop) (c : List Action × State) : Prop :=
  ∃ P Q, Outline m Safe P c.1 Q ∧ P c.2

theorem Holds.safe {c : List Action × State} (h : Holds m Safe c) : Safe c.2 := by
  obtain ⟨todo, s⟩ := c
  obtain ⟨P, Q, houtline, hP⟩ := h
  dsimp only at houtline hP ⊢
  induction houtline with
  | done hkeeps => exact hkeeps.safe _ hP
  | act hkeeps _ _ _ => exact hkeeps.safe _ hP
  | weaken hpre _ ih => exact ih (hpre _ hP)

/-- The environment leaves the outline in place. -/
theorem env {s s' : State} {ev : Event} (houtline : Outline m Safe P program Q) (hP : P s)
    (henv : m.env s ev = some s') : Holds m Safe (program, s') := by
  induction houtline with
  | done hkeeps => exact ⟨_, _, .done hkeeps, hkeeps.stable _ _ _ hP henv⟩
  | act hkeeps hact hrest _ => exact ⟨_, _, .act hkeeps hact hrest, hkeeps.stable _ _ _ hP henv⟩
  | weaken hpre _ ih => exact ih (hpre _ hP)

/-- An action leads to the next assertion. -/
theorem step {s s' : State} {a : Action} {rest : List Action}
    (houtline : Outline m Safe P (a :: rest) Q) (hP : P s) (hact : m.act s a = some s') :
    Holds m Safe (rest, s') := by
  generalize hprogram : a :: rest = program at houtline
  induction houtline with
  | done _ => cases hprogram
  | act _ hnext hrest _ =>
    cases hprogram
    exact ⟨_, _, hrest, hnext _ _ hP hact⟩
  | weaken hpre _ ih => exact ih (hpre _ hP) hprogram

/-- Every state of every run is safe. -/
theorem reachable (houtline : Outline m Safe P program Q) {c : List Action × State}
    (hreach : Reachable (m.running P program) c) : Safe c.2 := by
  have hholds : Holds m Safe c := by
    refine Reachable.invariant (P := Holds m Safe) ?_ ?_ hreach
    · intro c hinit
      obtain ⟨hprogram, hP⟩ := hinit
      exact ⟨P, Q, hprogram ▸ houtline, hP⟩
    · intro c ev c' hc hstep
      obtain ⟨P', Q', hout, hP'⟩ := hc
      obtain ⟨todo, s⟩ := c
      cases ev with
      | some ev =>
        have hstep' : (m.env s ev).map (fun s' => (todo, s')) = some c' := by
          cases todo with
          | nil => exact hstep
          | cons a rest => exact hstep
        obtain ⟨s', henv, rfl⟩ := Option.map_eq_some_iff.mp hstep'
        exact hout.env hP' henv
      | none =>
        cases todo with
        | nil => cases hstep
        | cons a rest =>
          obtain ⟨s', hact, rfl⟩ := Option.map_eq_some_iff.mp hstep
          exact hout.step hP' hact
  exact hholds.safe

end Outline

end Machine

end LTS
