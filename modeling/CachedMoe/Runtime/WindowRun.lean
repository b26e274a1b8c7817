import CachedMoe.Runtime.WindowBooks

/-! # Runs of the window ring

    The books of a session are kept by every step. So in every run of steps each slot of the ring
    is empty or has the position whose rows it holds; and what a step lists is held, in the runs
    where no prompt is used again whose window was not retained in full. -/

namespace CachedMoe.Runtime

open CachedMoe KvStore

namespace RingRun

section Runs

variable {c : TextConfig} {steps : Nat → StepAnswer} {r r' : RingRun} {l : Action}

theorem Books.failed (h : Books c r) {cfg : SpeculationConfig} {greedy : Bool} {a : SpecAnswer}
    {root max_new : Nat} {stops : List Nat} {err : Status} {e : DecodeStream}
    (hstep : speculative_step c steps cfg greedy a r.stream root max_new stops = (.error err, e)) :
    Books c { r with stream := e } ∧ (r.WindowKept → WindowKept { r with stream := e }) := by
  have hkeeps := (@speculative_step_spec c steps cfg greedy a r.stream root max_new stops).1
  rw [hstep] at hkeeps
  rcases speculative_step_failed hstep with ⟨kv, rest, hkv, hprompt, rfl⟩ | ⟨e₁, heq⟩
  · refine ⟨h.settle hkv hkeeps.produce_ced ?_ ?_, fun hwin => hwin.settle hkv⟩
    · rw [hprompt]
    · rw [hprompt]
  · have hloaded := @reset_loaded c steps e₁ e r.commits (h.served.congr hkeeps.cfg)
      (hkeeps.valid.trans h.valid) (hkeeps.produce_ced.trans h.produce_ced) heq
    exact ⟨hloaded.books, fun _ => hloaded.window⟩

theorem Books.appends (h : Books c r) (hstep : RingRun.step c steps r l = some r')
    (hlists : Lists c steps r l) :
    ∃ n row, Appended c r r'.stream n row ∧ r'.commits =
      commits_of r.stream.kv.cfg r'.stream.history r.stream.history.length n row ++ r.commits := by
  cases l with
  | decode token =>
    rw [RingRun.step] at hstep
    split at hstep
    · cases hstep
    next t e hdecode =>
    cases hstep
    exact ⟨1, _, h.decoded hdecode, rfl⟩
  | speculate cfg greedy a root max_new stops =>
    obtain ⟨rows, hok⟩ := hlists
    rw [RingRun.step] at hstep
    split at hstep
    · next err e hspec =>
      rw [hspec] at hok
      cases hok
    · next rows e hspec =>
      cases hstep
      exact ⟨rows.length, _, h.speculated hspec, rfl⟩
  | resolve => exact hlists.elim
  | retain greedy hidden first => exact hlists.elim
  | reuse greedy tokens => exact hlists.elim
  | rollback keep replay_max => exact hlists.elim
  | reset => exact hlists.elim

theorem Books.listed (h : Books c r) (hstep : RingRun.step c steps r l = some r')
    (hlists : Lists c steps r l) : Books c r' ∧ (r.WindowKept → r'.WindowKept ∧
      ListsHeld c r' (r'.stream.history.length - 1)) := by
  obtain ⟨n, row, ha, hcommits⟩ := h.appends hstep hlists
  obtain ⟨e, ks⟩ := r'
  dsimp only at hcommits
  subst hcommits
  exact ⟨h.write ha, fun hwin => ⟨hwin.write ha _, hwin.lists_held ha (h.write ha)⟩⟩

/-- Every step keeps the books, and the window when it recovers no window in part. -/
theorem Books.step (h : Books c r) (hstep : RingRun.step c steps r l = some r') :
    Books c r' ∧ (Covered r l → r.WindowKept → r'.WindowKept) := by
  -- only a prompt that is used again needs `Covered`
  cases l with
  | decode token =>
    obtain ⟨hbooks, hwin⟩ := h.listed hstep trivial
    exact ⟨hbooks, fun _ hkept => (hwin hkept).1⟩
  | speculate cfg greedy a root max_new stops =>
    cases hspec : speculative_step c steps cfg greedy a r.stream root max_new stops with
    | mk res e =>
      cases res with
      | error err =>
        rw [RingRun.step, hspec] at hstep
        cases hstep
        obtain ⟨hbooks, hwin⟩ := h.failed hspec
        exact ⟨hbooks, fun _ => hwin⟩
      | ok rows =>
        obtain ⟨hbooks, hwin⟩ := h.listed hstep ⟨rows, by rw [hspec]⟩
        exact ⟨hbooks, fun _ hkept => (hwin hkept).1⟩
  | resolve =>
    cases hstep
    exact ⟨h.settle (.inr rfl) rfl rfl rfl, fun _ hwin => hwin.settle (.inr rfl)⟩
  | retain greedy hidden first =>
    cases hstep
    exact ⟨h.retain greedy hidden first, fun _ hwin => hwin.retain greedy hidden first⟩
  | reuse greedy tokens =>
    rw [RingRun.step] at hstep
    split at hstep
    · cases hstep
    next first e hreuse =>
    cases hstep
    rcases reuse_prompt_ok hreuse with
      rfl | ⟨ring, state, rest, hreusable, hring, htokens, hprefix, hprompt, hced, rfl⟩
    · exact ⟨h, fun _ hwin => hwin⟩
    · exact ⟨h.recover hring htokens hprefix hprompt hced state _,
        fun hcovered _ => WindowKept.recover h hring (hcovered hreusable) _ state⟩
  | rollback keep replay_max =>
    rw [RingRun.step] at hstep
    split at hstep
    · cases hstep
    next st e hroll =>
    cases hstep
    obtain ⟨hbooks, hwin⟩ := h.rollback hroll
    exact ⟨hbooks, fun _ hkept => hwin (.inr hkept)⟩
  | reset =>
    cases hstep
    have hserved : Served c (reset_context (stream_parts c steps) r.stream).kv :=
      h.served.congr (clear_cfg _)
    have hloaded := @reset_loaded c steps _ _ r.commits hserved ((clear_valid _).trans h.valid)
      h.produce_ced rfl
    exact ⟨hloaded.books, fun _ _ => hloaded.window⟩

theorem reachable_books (h : LTS.Reachable (ring_system c steps) r) : Books c r := by
  refine h.invariant (fun r hr => Loaded.books hr) fun r l r' hbooks hstep => ?_
  exact (hbooks.step hstep).1

/-- The window stays while no prompt is used again in part. -/
theorem window_step (h : Books c r ∧ r.WindowKept)
    (hstep : ((ring_system c steps).restrict Covered).step r l r') :
    Books c r' ∧ r'.WindowKept := by
  obtain ⟨hbooks, hwin⟩ := h.1.step hstep.1
  exact ⟨hbooks, hwin hstep.2 h.2⟩

theorem reachable_window
    (h : LTS.Reachable ((ring_system c steps).restrict Covered) r) :
    Books c r ∧ r.WindowKept :=
  h.invariant (P := fun r => Books c r ∧ r.WindowKept)
    (fun _ hr => ⟨Loaded.books hr, Loaded.window hr⟩) fun _ _ _ => window_step

variable (c steps)

/-- The books of the window ring, over every run of decode steps, speculative steps, resolved and
    retained rings, prompts that are used again, rollbacks and resets. In every state reached each
    slot is empty or has the position whose rows it holds. When no prompt is used
    again unless its whole window is there, every slot that a step lists holds the position of its
    entry. -/
theorem window_books :
    (∀ r, LTS.Reachable (ring_system c steps) r → SlotsExact c r) ∧
      ∀ r l r', LTS.Reachable ((ring_system c steps).restrict Covered) r →
        (ring_system c steps).step r l r' → Lists c steps r l →
          ListsHeld c r' (r'.stream.history.length - 1) := by
  constructor
  · intro r hreach
    exact (reachable_books hreach).slots
  · intro r l r' hreach hstep hlists
    obtain ⟨hbooks, hwin⟩ := reachable_window hreach
    exact ((hbooks.listed hstep hlists).2 hwin).2

/-- Whatever ran before, a rollback to a shorter context leaves a ring of which the steps list only
    what is held, up to the next prompt that is used again in part. -/
theorem rollback_repairs {r r₁ r₂ r₃ : RingRun} {keep replay_max : Nat} {ls : List Action}
    {l : Action} (hreach : LTS.Reachable (ring_system c steps) r)
    (hkeep : keep < r.stream.history.length)
    (hroll : (ring_system c steps).step r (.rollback keep replay_max) r₁)
    (hrun : LTS.Run ((ring_system c steps).restrict Covered) r₁ ls r₂)
    (hstep : (ring_system c steps).step r₂ l r₃) (hlists : Lists c steps r₂ l) :
    ListsHeld c r₃ (r₃.stream.history.length - 1) := by
  have hshort : Books c r₁ ∧ r₁.WindowKept := by
    change RingRun.step c steps r _ = some r₁ at hroll
    rw [RingRun.step] at hroll
    split at hroll
    · cases hroll
    next st e hback =>
    cases hroll
    obtain ⟨hbooks, hwin⟩ := (reachable_books hreach).rollback hback
    exact ⟨hbooks, hwin (.inl hkeep)⟩
  have hkept : Books c r₂ ∧ r₂.WindowKept :=
    hrun.invariant (P := fun r => Books c r ∧ r.WindowKept) (fun _ _ _ => window_step) hshort
  exact ((hkept.1.listed hstep hlists).2 hkept.2).2

end Runs

/-! ### A window that was retained in part -/

/-- An empty context of the two layers. -/
def empty_run : RingRun where
  stream := {
    kv := {
      cfg := KvStoreConfig.for_model two_layers 32 32 two_layers_window
      valid := true
      cap := 32
      slot_pos := fun _ => kSlotEmpty }
    history := []
    rest := { dspark_next := 1 } }

theorem empty_run_loaded : Loaded two_layers empty_run where
  served := ⟨⟨32, 32, two_layers_window, rfl⟩, seeded_served.columns, seeded_served.ratios,
    seeded_served.lists⟩
  valid := rfl
  produce_ced := rfl
  win_lo := rfl
  prompt := rfl
  slots := fun _ _ => rfl
  rows := by
    intro s x _ hx
    have hempty : kSlotEmpty = (x : Int) := hx
    unfold kSlotEmpty at hempty
    omega

/-- The prompt that is sent twice. -/
def prompt_tokens : List Nat := [0, 1, 2, 3, 4, 5, 6, 7, 20]

/-- Fourteen tokens, then a prompt that has the first eight of them: it is replayed in at most
    `replay_max` steps, retained, answered and used again. -/
def prompt_again (replay_max : Nat) : List Action :=
  (List.range 14).map .decode ++ [
    .rollback 8 replay_max, .decode 20, .retain true false (some 30), .decode 30,
    .reuse true prompt_tokens]

/-- The whole window is replayed, and so retained. -/
theorem window_books_whole :
    ∃ r r', LTS.Reachable ((ring_system two_layers same_rows).restrict Covered) r ∧
      r.stream.history = prompt_tokens ∧
      (ring_system two_layers same_rows).step r (.decode 30) r' ∧ SlotsExact two_layers r' ∧
      ListsHeld two_layers r' 9 := by
  obtain ⟨r, r', hreach, hrun, hstates⟩ := LTS.Reachable.of_guarded_run
    (RingRun.step two_layers same_rows) Covered (prompt_again 8) [.decode 30]
    (fun r r' => r.stream.history == prompt_tokens && r'.stream.history.length == 10)
    empty_run_loaded (by decide +kernel)
  simp only [Bool.and_eq_true, beq_iff_eq] at hstates
  obtain ⟨hhistory, hlength⟩ := hstates
  cases hrun with
  | cons hguarded hnil =>
    cases hnil
    obtain ⟨hstep, hcovered⟩ := hguarded
    obtain ⟨hslots, hlists⟩ := window_books two_layers same_rows
    have hreach' : LTS.Reachable (ring_system two_layers same_rows) r' :=
      (hreach.step ⟨hstep, hcovered⟩).of_restrict
    have hheld := hlists r _ r' hreach hstep trivial
    rw [hlength] at hheld
    exact ⟨r, r', hreach, hhistory, hstep, hslots r' hreach', hheld⟩

/-- One replayed step leaves positions 2 and 3 masked, and they are not retained. When the prompt is
    used again they are listed, and slot 2 has position 10. -/
theorem reuse_lists_an_old_row :
    ¬ ∀ r l r', LTS.Reachable (ring_system two_layers same_rows) r →
      (ring_system two_layers same_rows).step r l r' → Lists two_layers same_rows r l →
        ListsHeld two_layers r' (r'.stream.history.length - 1) := by
  intro hclaim
  obtain ⟨r, r', hreach, hrun, hstates⟩ := LTS.Reachable.of_execute_run
    (RingRun.step two_layers same_rows) (prompt_again 1) [.decode 30]
    (fun _ r' => r'.stream.kv.cfg.window == 8 && r'.stream.history.length == 10 &&
      r'.stream.kv.top 0 0 == 2 && r'.stream.kv.slot_pos 2 == 10)
    empty_run_loaded (by decide +kernel)
  simp only [Bool.and_eq_true, beq_iff_eq] at hstates
  obtain ⟨⟨⟨hwindow, hlength⟩, htop⟩, hslot⟩ := hstates
  cases hrun with
  | cons hstep hnil =>
    cases hnil
    have hheld := hclaim r _ r' hreach hstep trivial 0 (by decide) (by decide) 0
      (by rw [hwindow]; decide) (by rw [htop]; decide)
    rw [hwindow, hlength] at hheld
    obtain ⟨x, hx, _, hpos, _⟩ := hheld
    obtain rfl : x = 2 := by omega
    have hsettled : resolved r'.stream.kv.cfg.window 10 2 (r'.stream.kv.slot_pos 2) = 2 := hpos
    rw [hslot] at hsettled
    cases hsettled

/-- Rolled back by a token and replayed in full, the context of that run lists what it holds. -/
theorem rollback_repairs_reuse :
    ∃ r, LTS.Reachable (ring_system two_layers same_rows) r ∧ r.stream.history.length = 9 ∧
      ListsHeld two_layers r 8 := by
  obtain ⟨r, r', hreach, hrun, hstates⟩ := LTS.Reachable.of_execute_run
    (RingRun.step two_layers same_rows) (prompt_again 1) [.rollback 8 8, .decode 30]
    (fun r r' => r.stream.history.length == 9 && r'.stream.history.length == 9)
    empty_run_loaded (by decide +kernel)
  simp only [Bool.and_eq_true, beq_iff_eq] at hstates
  obtain ⟨hlong, hlength⟩ := hstates
  have hreach' : LTS.Reachable (ring_system two_layers same_rows) r' := hreach.run hrun
  cases hrun with
  | cons hroll hrun =>
    cases hrun with
    | cons hstep hnil =>
      cases hnil
      have hheld := rollback_repairs two_layers same_rows hreach (by omega) hroll (.nil _) hstep
        trivial
      rw [hlength] at hheld
      exact ⟨r', hreach', hlength, hheld⟩

end RingRun

end CachedMoe.Runtime
