import Mathlib.Logic.Basic

/-! # Computations that may give up

    Rules for `EStateM`: a computation that changes a state and may stop with an
    error, where what it did before the error stays done. `Spec P m ok Q E` says
    both what the state is at each of the two exits and which of them is taken:

    * `ok` is the condition under which `m` runs to its end;
    * `Q` holds of the value and the state there;
    * `E` holds of the state the error leaves behind.

    Nothing here names a component of the runtime. -/

namespace Attempt

universe u

variable {ε σ α β : Type u}

/-! ### The two exits -/

/-- From a state with `P`, `m` ends in `Q` when `ok` holds, and with an error in `E` when not. -/
def Spec (P : σ → Prop) (m : EStateM ε σ α) (ok : Prop) (Q : α → σ → Prop) (E : σ → Prop) : Prop :=
  ∀ s, P s →
    match m s with
    | .ok a s' => ok ∧ Q a s'
    | .error _ s' => ¬ ok ∧ E s'

/-- A step that runs when a condition holds. -/
def whenever (c : Prop) [Decidable c] (m : EStateM ε σ PUnit) : EStateM ε σ PUnit :=
  if c then m else pure ⟨⟩

variable {P P' : σ → Prop} {m : EStateM ε σ α} {ok ok' : Prop} {Q Q' : α → σ → Prop}
  {E E' : σ → Prop}

theorem Spec.conseq (h : Spec P m ok Q E) (hP : ∀ s, P' s → P s) (hok : ok ↔ ok')
    (hQ : ∀ a s, ok → Q a s → Q' a s) (hE : ∀ s, ¬ ok → E s → E' s) : Spec P' m ok' Q' E' := by
  intro s hs
  have hm := h s (hP s hs)
  cases hrun : m s with
  | ok a s' =>
    rw [hrun] at hm
    exact ⟨hok.mp hm.1, hQ a s' hm.1 hm.2⟩
  | error e s' =>
    rw [hrun] at hm
    exact ⟨fun h' => hm.1 (hok.mpr h'), hE s' hm.1 hm.2⟩

/-- The fixed state a computation starts in, taken out of its precondition. -/
theorem Spec.of_start (h : ∀ s, P s → Spec (fun s' => s' = s) m ok Q E) : Spec P m ok Q E :=
  fun s hs => h s hs s rfl

/-! ### Single steps -/

theorem Spec.pure {a : α} (hok : ok) (h : ∀ s, P s → Q a s) :
    Spec P (pure a : EStateM ε σ α) ok Q E :=
  fun s hs => ⟨hok, h s hs⟩

/-- A state change under a condition. -/
theorem Spec.whenever_modify {c : Prop} [Decidable c] {f : σ → σ} {I : σ → Prop}
    (h : ∀ s, c → I s → I (f s)) :
    Spec I (whenever c (modify f) : EStateM ε σ PUnit) True (fun _ => I) E := by
  intro s hs
  by_cases hc : c
  · rw [Attempt.whenever, if_pos hc]
    exact ⟨trivial, h s hc hs⟩
  · rw [Attempt.whenever, if_neg hc]
    exact ⟨trivial, hs⟩

theorem Spec.modify {f : σ → σ} {Q : PUnit → σ → Prop} (h : ∀ s, P s → Q ⟨⟩ (f s)) :
    Spec P (modify f : EStateM ε σ PUnit) True Q E :=
  fun s hs => ⟨trivial, h s hs⟩

theorem Spec.modifyGet {f : σ → α × σ} (h : ∀ s, P s → Q (f s).1 (f s).2) :
    Spec P (modifyGet f : EStateM ε σ α) True Q E :=
  fun s hs => ⟨trivial, h s hs⟩

/-- An answer from outside leaves the state as it is. -/
theorem Spec.ofExcept {r : Except ε α} (hQ : ∀ a s, r = .ok a → P s → Q a s)
    (hE : ∀ s, P s → E s) :
    Spec P (ofExcept r : EStateM ε σ α) (r.isOk = true) Q E := by
  intro s hs
  cases r with
  | ok a => exact ⟨rfl, hQ a s rfl hs⟩
  | error e => exact ⟨Bool.false_ne_true, hE s hs⟩

/-! ### Sequencing -/

theorem Spec.bind {R : β → σ → Prop} {k : α → EStateM ε σ β} (h : Spec P m ok Q E)
    (hk : ok → ∀ a, Spec (Q a) (k a) ok' R E) : Spec P (m >>= k) (ok ∧ ok') R E := by
  intro s hs
  have hm := h s hs
  cases hrun : m s with
  | ok a s' =>
    rw [hrun] at hm
    have hka := hk hm.1 a s' hm.2
    have hbind : (m >>= k) s = k a s' := by
      show EStateM.bind m k s = k a s'
      simp only [EStateM.bind, hrun]
    rw [hbind]
    cases hrun' : k a s' with
    | ok b s'' =>
      rw [hrun'] at hka
      exact ⟨⟨hm.1, hka.1⟩, hka.2⟩
    | error e s'' =>
      rw [hrun'] at hka
      exact ⟨fun h' => hka.1 h'.2, hka.2⟩
  | error e s' =>
    rw [hrun] at hm
    have hbind : (m >>= k) s = .error e s' := by
      show EStateM.bind m k s = .error e s'
      simp only [EStateM.bind, hrun]
    rw [hbind]
    exact ⟨fun h' => hm.1 h'.1, hm.2⟩

/-- A first step that cannot fail. -/
theorem Spec.bind_total {R : β → σ → Prop} {k : α → EStateM ε σ β} (h : Spec P m True Q E)
    (hk : ∀ a, Spec (Q a) (k a) ok' R E) : Spec P (m >>= k) ok' R E :=
  (h.bind fun _ a => hk a).conseq (fun _ h => h) (iff_of_eq (true_and _)) (fun _ _ _ h => h)
    fun _ _ h => h

/-- What follows may depend on the state that is read. -/
theorem Spec.get_bind {R : β → σ → Prop} {k : σ → EStateM ε σ β}
    (h : ∀ s, P s → Spec (fun s' => s' = s) (k s) ok' R E) :
    Spec P (get >>= k) ok' R E :=
  fun s hs => h s hs s rfl

theorem Spec.whenever {c : Prop} [Decidable c] {m : EStateM ε σ PUnit} {Q : PUnit → σ → Prop}
    (h : c → Spec P m ok Q E) (h' : ∀ s, ¬ c → P s → Q ⟨⟩ s) :
    Spec P (whenever c m) (c → ok) Q E := by
  by_cases hc : c
  · rw [Attempt.whenever, if_pos hc]
    exact (h hc).conseq (fun _ h => h) ⟨fun h _ => h, fun h => h hc⟩ (fun _ _ _ h => h)
      fun _ _ h => h
  · rw [Attempt.whenever, if_neg hc]
    exact Spec.pure (fun h => absurd h hc) fun s hs => h' s hc hs

/-- The error is replaced, the exits stay. -/
theorem Spec.adaptExcept {ε' : Type u} {f : ε → ε'} (h : Spec P m ok Q E) :
    Spec P (EStateM.adaptExcept f m) ok Q E := by
  intro s hs
  have hm := h s hs
  cases hrun : m s with
  | ok a s' =>
    rw [hrun] at hm
    simpa only [EStateM.adaptExcept, hrun] using hm
  | error e s' =>
    rw [hrun] at hm
    simpa only [EStateM.adaptExcept, hrun] using hm

/-! ### Loops over a list -/

/-- A loop that stops at the first element whose body fails. `I pre` holds once `pre` is done;
    an error comes from an element `a`, after every element before it. -/
theorem Spec.forM (l : List α) (f : α → EStateM ε σ PUnit) (good : α → Prop)
    (I : List α → σ → Prop) (F : List α → α → σ → Prop)
    (h : ∀ pre a post, l = pre ++ a :: post →
      Spec (I pre) (f a) (good a) (fun _ => I (pre ++ [a])) (F pre a)) :
    Spec (I []) (l.forM f) (∀ a ∈ l, good a) (fun _ => I l)
      (fun s => ∃ pre a post, l = pre ++ a :: post ∧ (∀ x ∈ pre, good x) ∧ ¬ good a ∧
        F pre a s) := by
  -- the elements done so far are fixed, the induction is on those still to come
  suffices hrest : ∀ rest done, l = done ++ rest → (∀ x ∈ done, good x) →
      Spec (I done) (rest.forM f) (∀ a ∈ rest, good a) (fun _ => I l)
        (fun s => ∃ pre a post, l = pre ++ a :: post ∧ (∀ x ∈ pre, good x) ∧ ¬ good a ∧
          F pre a s) from hrest l [] rfl fun x hx => absurd hx List.not_mem_nil
  intro rest
  induction rest with
  | nil =>
    intro done hl _
    rw [List.append_nil] at hl
    rw [← hl]
    exact Spec.pure (fun a ha => absurd ha List.not_mem_nil) fun s hs => hs
  | cons a rest ih =>
    intro done hl hdone
    have hfirst := (h done a rest hl).conseq (fun _ h => h) Iff.rfl (fun _ _ _ h => h)
      fun s hbad hs => (⟨done, a, rest, hl, hdone, hbad, hs⟩ : ∃ pre a post,
        l = pre ++ a :: post ∧ (∀ x ∈ pre, good x) ∧ ¬ good a ∧ F pre a s)
    have hloop : Spec (I done) ((a :: rest).forM f) (good a ∧ ∀ b ∈ rest, good b) (fun _ => I l) _ :=
      hfirst.bind fun hgood _ => ih (done ++ [a]) (by rw [hl, List.append_assoc]; rfl)
        (by
          intro x hx
          rcases List.mem_append.mp hx with hx | hx
          · exact hdone x hx
          · rw [List.mem_singleton.mp hx]
            exact hgood)
    exact hloop.conseq (fun _ h => h) List.forall_mem_cons.symm (fun _ _ _ h => h) fun _ _ h => h

/-- A loop that keeps an invariant, with one condition for an error anywhere in it. -/
theorem Spec.forM_invariant (l : List α) (f : α → EStateM ε σ PUnit) (good : α → Prop)
    (I E : σ → Prop) (h : ∀ a ∈ l, Spec I (f a) (good a) (fun _ => I) E) :
    Spec I (l.forM f) (∀ a ∈ l, good a) (fun _ => I) E := by
  have hloop := Spec.forM l f good (fun _ => I) (fun _ _ => E)
    fun pre a post hl => h a (by rw [hl]; exact List.mem_append_right _ List.mem_cons_self)
  refine hloop.conseq (fun _ h => h) Iff.rfl (fun _ _ _ h => h) fun s _ hs => ?_
  obtain ⟨_, _, _, _, _, _, hE⟩ := hs
  exact hE

end Attempt
