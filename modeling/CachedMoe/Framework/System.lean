import Mathlib.Logic.Basic

/-! # Labelled Transition Systems

    The general part of every state-machine argument of this development:

    * `System`: initial states and labelled steps;
    * `Run` and `Reachable`: finite runs and the states they end in;
    * the invariant rules: what one step keeps, a whole run keeps;
    * `System.ofNext`: a system given by an executable step function, whose
      runs are computed by `execute`;
    * `System.restrict`: the runs all of whose steps meet a condition.

    Nothing here names a component of the runtime. -/

namespace LTS

universe u v

variable {State : Type u} {Label : Type v}

/-! ### Systems and runs -/

/-- A labelled transition system. -/
structure System (State : Type u) (Label : Type v) where
  /-- The states a run may start in. -/
  init : State → Prop
  /-- `step s l s'`: action `l` takes `s` to `s'`. -/
  step : State → Label → State → Prop

/-- `Run sys s ls s'`: the actions `ls`, taken in order, lead from `s` to `s'`. -/
inductive Run (sys : System State Label) : State → List Label → State → Prop where
  | nil (s : State) : Run sys s [] s
  | cons {s s₁ s₂ : State} {l : Label} {ls : List Label} :
      sys.step s l s₁ → Run sys s₁ ls s₂ → Run sys s (l :: ls) s₂

/-- A state is reachable when some run from an initial state ends in it. -/
def Reachable (sys : System State Label) (s : State) : Prop :=
  ∃ s₀ ls, sys.init s₀ ∧ Run sys s₀ ls s

variable {sys : System State Label} {s s₁ s₂ : State} {l : Label} {ls ls' : List Label}

theorem Run.single (h : sys.step s l s₁) : Run sys s [l] s₁ :=
  .cons h (.nil s₁)

theorem Run.append (h : Run sys s ls s₁) (h' : Run sys s₁ ls' s₂) :
    Run sys s (ls ++ ls') s₂ := by
  induction h with
  | nil s => exact h'
  | cons hstep _ ih => exact .cons hstep (ih h')

/-- A run over two lists of actions stops in between. -/
theorem Run.of_append (h : Run sys s (ls ++ ls') s₂) :
    ∃ s₁, Run sys s ls s₁ ∧ Run sys s₁ ls' s₂ := by
  induction ls generalizing s with
  | nil => exact ⟨s, .nil s, h⟩
  | cons l ls ih =>
    cases h with
    | cons hstep hrest =>
      obtain ⟨s₁, hfirst, hsecond⟩ := ih hrest
      exact ⟨s₁, .cons hstep hfirst, hsecond⟩

/-- A step that made `P` true in a run that ends with it. -/
theorem Run.turning_point {P : State → Prop} (hrun : Run sys s ls s₂) (h : ¬ P s) (h' : P s₂) :
    ∃ ls₁ l ls₂ t t', ls = ls₁ ++ l :: ls₂ ∧ Run sys s ls₁ t ∧ sys.step t l t' ∧
      Run sys t' ls₂ s₂ ∧ ¬ P t ∧ P t' := by
  induction hrun with
  | nil s => exact absurd h' h
  | @cons s s₁ s₂ l ls hstep hrest ih =>
    by_cases hP : P s₁
    · exact ⟨[], l, ls, s, s₁, rfl, .nil s, hstep, hrest, h, hP⟩
    · obtain ⟨ls₁, l', ls₂, t, t', heq, hbefore, hturn, hafter, hno, hyes⟩ := ih hP h'
      exact ⟨l :: ls₁, l', ls₂, t, t', by rw [heq]; rfl, .cons hstep hbefore, hturn, hafter,
        hno, hyes⟩

theorem Run.mono {sys' : System State Label}
    (hstep : ∀ s l s', sys.step s l s' → sys'.step s l s') (hrun : Run sys s ls s₁) :
    Run sys' s ls s₁ := by
  induction hrun with
  | nil s => exact .nil s
  | cons hs _ ih => exact .cons (hstep _ _ _ hs) ih

theorem Reachable.of_init (h : sys.init s) : Reachable sys s :=
  ⟨s, [], h, .nil s⟩

theorem Reachable.run (h : Reachable sys s) (hrun : Run sys s ls s₁) :
    Reachable sys s₁ := by
  obtain ⟨s₀, ls₀, hinit, hrun₀⟩ := h
  exact ⟨s₀, ls₀ ++ ls, hinit, hrun₀.append hrun⟩

theorem Reachable.step (h : Reachable sys s) (hstep : sys.step s l s₁) :
    Reachable sys s₁ :=
  h.run (.single hstep)

/-! ### Invariant rules -/

/-- What every step keeps, every run keeps. -/
theorem Run.invariant {P : State → Prop}
    (hstep : ∀ s l s', P s → sys.step s l s' → P s')
    (hrun : Run sys s ls s₁) (h : P s) : P s₁ := by
  induction hrun with
  | nil s => exact h
  | cons hs _ ih => exact ih (hstep _ _ _ h hs)

/-- What holds initially and is kept by every step holds of every reachable state. -/
theorem Reachable.invariant {P : State → Prop}
    (hinit : ∀ s, sys.init s → P s)
    (hstep : ∀ s l s', P s → sys.step s l s' → P s')
    (h : Reachable sys s) : P s := by
  obtain ⟨s₀, ls, hs₀, hrun⟩ := h
  exact hrun.invariant hstep (hinit s₀ hs₀)

/-! ### Fewer initial states -/

/-- The same steps, from the initial states that meet `start`. -/
def System.starting (sys : System State Label) (start : State → Prop) : System State Label where
  init := fun s => sys.init s ∧ start s
  step := sys.step

/-! ### Executable systems -/

/-- The system of an executable step function; `none` means the action is not enabled. -/
def System.ofNext (init : State → Prop) (next : State → Label → Option State) :
    System State Label where
  init := init
  step := fun s l s' => next s l = some s'

/-- Runs the step function over a list of actions. -/
def execute (next : State → Label → Option State) : State → List Label → Option State
  | s, [] => some s
  | s, l :: ls => (next s l).bind fun s' => execute next s' ls

/-- The executable run is the run of the system it defines. -/
theorem run_ofNext_iff {init : State → Prop} {next : State → Label → Option State} :
    Run (System.ofNext init next) s ls s₁ ↔ execute next s ls = some s₁ := by
  induction ls generalizing s with
  | nil =>
    constructor
    · intro h
      cases h
      rfl
    · intro h
      obtain rfl : s = s₁ := by simpa [execute] using h
      exact .nil s
  | cons l ls ih =>
    constructor
    · intro h
      cases h with
      | cons hstep hrun =>
        have hnext : next s l = some _ := hstep
        simp [execute, hnext, ih.mp hrun]
    · intro h
      simp only [execute, Option.bind_eq_some_iff] at h
      obtain ⟨s', hnext, hrest⟩ := h
      exact .cons hnext (ih.mpr hrest)

/-- A run to a state with a property, found by executing a list of actions. -/
theorem Run.of_execute {init : State → Prop} (next : State → Label → Option State) (s : State)
    (ls : List Label) (P : State → Bool) (h : (execute next s ls).any P = true) :
    ∃ s', Run (System.ofNext init next) s ls s' ∧ P s' = true := by
  rw [Option.any_eq_true] at h
  obtain ⟨s', hexec, hP⟩ := h
  exact ⟨s', run_ofNext_iff.mpr hexec, hP⟩

/-- A reachable state with a property. -/
theorem Reachable.of_execute {init : State → Prop} (next : State → Label → Option State)
    (ls : List Label) (P : State → Bool) (hinit : init s)
    (h : (execute next s ls).any P = true) :
    ∃ s', Reachable (System.ofNext init next) s' ∧ P s' = true := by
  obtain ⟨s', hrun, hP⟩ := Run.of_execute next s ls P h
  exact ⟨s', ⟨s, ls, hinit, hrun⟩, hP⟩

/-- Two states with a property, the second on a run from the first. -/
theorem Reachable.of_execute_run {init : State → Prop} (next : State → Label → Option State)
    (ls ls' : List Label) (P : State → State → Bool) (hinit : init s)
    (h : ((execute next s ls).any fun s₁ => (execute next s₁ ls').any (P s₁)) = true) :
    ∃ s₁ s₂, Reachable (System.ofNext init next) s₁ ∧ Run (System.ofNext init next) s₁ ls' s₂ ∧
      P s₁ s₂ = true := by
  rw [Option.any_eq_true] at h
  obtain ⟨s₁, hexec, hrest⟩ := h
  rw [Option.any_eq_true] at hrest
  obtain ⟨s₂, hexec', hP⟩ := hrest
  exact ⟨s₁, s₂, ⟨s, ls, hinit, run_ofNext_iff.mpr hexec⟩, run_ofNext_iff.mpr hexec', hP⟩

/-! ### Restricted runs -/

/-- The same system with only the steps that meet `ok`. -/
def System.restrict (sys : System State Label) (ok : State → Label → Prop) :
    System State Label where
  init := sys.init
  step := fun s l s' => sys.step s l s' ∧ ok s l

theorem Reachable.of_restrict {ok : State → Label → Prop} (h : Reachable (sys.restrict ok) s) :
    Reachable sys s := by
  obtain ⟨s₀, ls, hinit, hrun⟩ := h
  refine ⟨s₀, ls, hinit, hrun.mono ?_⟩
  intro s l s' hs
  exact hs.1

/-- Steps that keep an invariant under which they meet the condition: the restriction leaves
    nothing out. -/
theorem Reachable.restrict {ok : State → Label → Prop} {P : State → Prop}
    (hinit : ∀ s, sys.init s → P s)
    (hstep : ∀ s l s', P s → sys.step s l s' → ok s l ∧ P s')
    (h : Reachable sys s) : Reachable (sys.restrict ok) s ∧ P s := by
  apply h.invariant (P := fun s => Reachable (sys.restrict ok) s ∧ P s)
  · intro s hs
    exact ⟨.of_init hs, hinit s hs⟩
  · intro s l s' ⟨hreach, hP⟩ hs
    obtain ⟨hok, hP'⟩ := hstep s l s' hP hs
    exact ⟨hreach.step ⟨hs, hok⟩, hP'⟩

/-- The step function of a restricted system. -/
def guarded (next : State → Label → Option State) (ok : State → Label → Prop)
    [∀ s l, Decidable (ok s l)] (s : State) (l : Label) : Option State :=
  if ok s l then next s l else none

theorem restrict_ofNext (init : State → Prop) (next : State → Label → Option State)
    (ok : State → Label → Prop) [∀ s l, Decidable (ok s l)] :
    (System.ofNext init next).restrict ok = System.ofNext init (guarded next ok) := by
  unfold System.restrict System.ofNext guarded
  congr 1
  funext s l s'
  by_cases h : ok s l
  · simp [h]
  · simp [h]

/-- Where each step keeps `P`, and keeps `Q` just when it meets the condition, the runs of the
    restriction are those that keep `Q`. -/
theorem Run.restrict_iff {init : State → Prop} {next : State → Label → Option State}
    {ok : State → Label → Prop} {P Q : State → Prop}
    (hstep : ∀ s l s', P s → next s l = some s' → P s' ∧ (Q s' ↔ Q s ∧ ok s l))
    (hrun : Run (System.ofNext init next) s ls s₁) (h : P s) :
    Q s₁ ↔ Q s ∧ Run ((System.ofNext init next).restrict ok) s ls s₁ := by
  induction hrun with
  | nil s => exact (and_iff_left (.nil s)).symm
  | @cons s s₁ s₂ l ls hs hrest ih =>
    obtain ⟨hP, hQ⟩ := hstep s l s₁ h hs
    rw [ih hP, hQ, and_assoc]
    refine and_congr_right fun _ => ⟨fun hrun => .cons ⟨hs, hrun.1⟩ hrun.2, fun hrun => ?_⟩
    cases hrun with
    | @cons _ t _ _ _ hfirst hmore =>
      have hnext : next s l = some t := hfirst.1
      have hs' : next s l = some s₁ := hs
      obtain rfl : t = s₁ := Option.some.inj (hnext.symm.trans hs')
      exact ⟨hfirst.2, hmore⟩

/-- A restricted run to a state with a property. -/
theorem Run.of_guarded {init : State → Prop} (next : State → Label → Option State)
    (ok : State → Label → Prop) [∀ s l, Decidable (ok s l)] (s : State) (ls : List Label)
    (P : State → Bool) (h : (execute (guarded next ok) s ls).any P = true) :
    ∃ s', Run ((System.ofNext init next).restrict ok) s ls s' ∧ P s' = true := by
  rw [restrict_ofNext]
  exact Run.of_execute _ s ls P h

theorem Reachable.of_guarded {init : State → Prop} (next : State → Label → Option State)
    (ok : State → Label → Prop) [∀ s l, Decidable (ok s l)] (ls : List Label)
    (P : State → Bool) (hinit : init s) (h : (execute (guarded next ok) s ls).any P = true) :
    ∃ s', Reachable ((System.ofNext init next).restrict ok) s' ∧ P s' = true := by
  rw [restrict_ofNext]
  exact Reachable.of_execute _ ls P hinit h

theorem Reachable.of_guarded_run {init : State → Prop} (next : State → Label → Option State)
    (ok : State → Label → Prop) [∀ s l, Decidable (ok s l)] (ls ls' : List Label)
    (P : State → State → Bool) (hinit : init s)
    (h : ((execute (guarded next ok) s ls).any fun s₁ =>
      (execute (guarded next ok) s₁ ls').any (P s₁)) = true) :
    ∃ s₁ s₂, Reachable ((System.ofNext init next).restrict ok) s₁ ∧
      Run ((System.ofNext init next).restrict ok) s₁ ls' s₂ ∧ P s₁ s₂ = true := by
  rw [restrict_ofNext]
  exact Reachable.of_execute_run _ ls ls' P hinit h

end LTS
