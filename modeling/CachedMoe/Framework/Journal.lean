import Mathlib.Logic.Function.Basic
import Mathlib.Data.List.Basic

/-! # Tables under keyed updates

    A table that is changed by a list of updates, each at one key. What an entry ends as depends on
    the updates at its key alone, in their order:

    * `apply_congr`: two lists with the same updates at every key do the same;
    * `apply_swap`: two nested loops may be exchanged when a key belongs to one round of the outer
      loop, or to one round of the inner one;
    * `restore_suffix`: copying back what was saved at the keys of the last updates undoes them. -/

namespace Journal

variable {κ β : Type*} [DecidableEq κ]

structure Update (κ β : Type*) where
  key : κ
  change : β → β

/-- The update that puts `v` at `key`, whatever was there. -/
def Update.put (key : κ) (v : β) : Update κ β := { key, change := fun _ => v }

def apply (t : κ → β) (us : List (Update κ β)) : κ → β :=
  us.foldl (fun t u => Function.update t u.key (u.change (t u.key))) t

/-- The updates at `k`. -/
def at_key (us : List (Update κ β)) (k : κ) : List (Update κ β) := us.filter fun u => u.key = k

/-- The entries of `saved` at `ks`, copied over those of `t`. -/
def restore (t saved : κ → β) (ks : List κ) : κ → β :=
  ks.foldl (fun t k => Function.update t k (saved k)) t

@[simp] theorem apply_nil (t : κ → β) : apply t [] = t := rfl

@[simp] theorem apply_cons (t : κ → β) (u : Update κ β) (us : List (Update κ β)) :
    apply t (u :: us) = apply (Function.update t u.key (u.change (t u.key))) us := rfl

theorem apply_append (t : κ → β) (us vs : List (Update κ β)) :
    apply t (us ++ vs) = apply (apply t us) vs :=
  List.foldl_append

/-- A loop over states, each round of which updates the table that `V` shows. -/
theorem view_foldl {σ ι : Type*} {V : σ → κ → β} {P : σ → Prop} {step : σ → ι → σ}
    {f : ι → List (Update κ β)} {l : List ι}
    (hstep : ∀ i ∈ l, ∀ s, P s → P (step s i) ∧ V (step s i) = apply (V s) (f i))
    {s : σ} (hs : P s) :
    P (l.foldl step s) ∧ V (l.foldl step s) = apply (V s) (l.flatMap f) := by
  induction l generalizing s with
  | nil => exact ⟨hs, rfl⟩
  | cons i l ih =>
    obtain ⟨hinv, hview⟩ := hstep i List.mem_cons_self s hs
    obtain ⟨hinv', hview'⟩ := ih (fun j hj => hstep j (List.mem_cons_of_mem _ hj)) hinv
    rw [List.foldl_cons, List.flatMap_cons, apply_append, ← hview]
    exact ⟨hinv', hview'⟩

/-! ### One entry -/

theorem apply_eq (t : κ → β) (us : List (Update κ β)) (k : κ) :
    apply t us k = (at_key us k).foldl (fun v u => u.change v) (t k) := by
  induction us generalizing t with
  | nil => rfl
  | cons u us ih =>
    rw [apply_cons, ih]
    by_cases hk : u.key = k
    · subst hk
      rw [at_key, at_key, List.filter_cons_of_pos (by simp), List.foldl_cons, Function.update_self]
    · rw [at_key, at_key, List.filter_cons_of_neg (by simpa using hk),
        Function.update_of_ne (Ne.symm hk)]

theorem apply_congr {us vs : List (Update κ β)} (h : ∀ k, at_key us k = at_key vs k) (t : κ → β) :
    apply t us = apply t vs := by
  funext k
  rw [apply_eq, apply_eq, h k]

theorem at_key_eq_nil {us : List (Update κ β)} {k : κ} (h : ∀ u ∈ us, u.key ≠ k) :
    at_key us k = [] := by
  rw [at_key, List.filter_eq_nil_iff]
  intro u hu
  simpa using h u hu

theorem apply_of_ne {us : List (Update κ β)} {k : κ} (h : ∀ u ∈ us, u.key ≠ k) (t : κ → β) :
    apply t us k = t k := by
  rw [apply_eq, at_key_eq_nil h]
  rfl

/-- An entry that some update puts, where all the updates at its key put the same. -/
theorem apply_put {us : List (Update κ β)} {k : κ} {v : β} (hmem : ∃ u ∈ us, u.key = k)
    (h : ∀ u ∈ us, u.key = k → ∀ b, u.change b = v) (t : κ → β) : apply t us k = v := by
  induction us generalizing t with
  | nil =>
    obtain ⟨u, hu, _⟩ := hmem
    cases hu
  | cons u us ih =>
    rw [apply_cons]
    by_cases hrest : ∃ u' ∈ us, u'.key = k
    · exact ih hrest (fun u' hu' => h u' (List.mem_cons_of_mem _ hu')) _
    · -- the first one is the last at its key
      have hkey : u.key = k := by
        obtain ⟨u', hu', hkey⟩ := hmem
        rcases List.mem_cons.mp hu' with rfl | hu'
        · exact hkey
        · exact absurd ⟨u', hu', hkey⟩ hrest
      rw [apply_of_ne fun u' hu' heq => hrest ⟨u', hu', heq⟩, ← hkey, Function.update_self]
      exact h u List.mem_cons_self hkey _

/-! ### Nested loops -/

section Swap

variable {ι ι' : Type*} {l : List ι} {l' : List ι'} {g : ι → ι' → List (Update κ β)}

theorem at_key_flatMap (l : List ι) (f : ι → List (Update κ β)) (k : κ) :
    at_key (l.flatMap f) k = l.flatMap fun i => at_key (f i) k := by
  rw [at_key, List.filter_flatMap]
  rfl

/-- A loop only one of whose rounds does anything. -/
theorem flatMap_of_one {α : Type*} {f : ι → List α} (hl : l.Nodup) {i : ι} (hi : i ∈ l)
    (h : ∀ j ∈ l, j ≠ i → f j = []) : l.flatMap f = f i := by
  induction l with
  | nil => cases hi
  | cons j l ih =>
    obtain ⟨hj, hl⟩ := List.nodup_cons.mp hl
    rw [List.flatMap_cons]
    rcases List.mem_cons.mp hi with rfl | hi
    · have hrest : l.flatMap f = [] := by
        rw [List.flatMap_eq_nil_iff]
        intro j' hj'
        exact h j' (List.mem_cons_of_mem _ hj') fun heq => hj (heq ▸ hj')
      rw [hrest, List.append_nil]
    · have hne : j ≠ i := fun heq => hj (heq ▸ hi)
      rw [h j List.mem_cons_self hne, List.nil_append]
      exact ih hl hi fun j' hj' => h j' (List.mem_cons_of_mem _ hj')

/-- Every key is updated in one round of the loop over `l` only. -/
def OneRound (l : List ι) (l' : List ι') (g : ι → ι' → List (Update κ β)) : Prop :=
  ∀ i ∈ l, ∀ j ∈ l, ∀ i' ∈ l', ∀ j' ∈ l', ∀ u ∈ g i i', ∀ v ∈ g j j', u.key = v.key → i = j

theorem at_key_swap (hl : l.Nodup) (h : OneRound l l' g) (k : κ) :
    at_key (l.flatMap fun i => l'.flatMap fun i' => g i i') k =
      at_key (l'.flatMap fun i' => l.flatMap fun i => g i i') k := by
  simp only [at_key_flatMap]
  by_cases hsome : ∃ i ∈ l, ∃ i' ∈ l', ∃ u ∈ g i i', u.key = k
  · obtain ⟨i, hi, i₀, hi₀, u, hu, huk⟩ := hsome
    -- the other rounds of the loop over `l` do not reach `k`
    have hother : ∀ j ∈ l, j ≠ i → ∀ j' ∈ l', at_key (g j j') k = [] := by
      intro j hj hne j' hj'
      refine at_key_eq_nil fun v hv hvk => hne ?_
      exact h j hj i hi j' hj' i₀ hi₀ v hv u hu (hvk.trans huk.symm)
    rw [flatMap_of_one hl hi fun j hj hne => List.flatMap_eq_nil_iff.mpr (hother j hj hne)]
    refine (List.flatMap_congr fun j' hj' => ?_).symm
    exact flatMap_of_one hl hi fun j hj hne => hother j hj hne j' hj'
  · have hnone : ∀ i ∈ l, ∀ i' ∈ l', at_key (g i i') k = [] := by
      intro i hi i' hi'
      exact at_key_eq_nil fun u hu huk => hsome ⟨i, hi, i', hi', u, hu, huk⟩
    rw [List.flatMap_eq_nil_iff.mpr fun i hi => List.flatMap_eq_nil_iff.mpr (hnone i hi),
      List.flatMap_eq_nil_iff.mpr fun i' hi' => List.flatMap_eq_nil_iff.mpr fun i hi =>
        hnone i hi i' hi']

theorem apply_swap (hl : l.Nodup) (h : OneRound l l' g) (t : κ → β) :
    apply t (l.flatMap fun i => l'.flatMap fun i' => g i i') =
      apply t (l'.flatMap fun i' => l.flatMap fun i => g i i') :=
  apply_congr (at_key_swap hl h) t

end Swap

/-! ### Undo -/

theorem restore_eq (t saved : κ → β) (ks : List κ) (k : κ) :
    restore t saved ks k = if k ∈ ks then saved k else t k := by
  induction ks generalizing t with
  | nil => simp [restore]
  | cons k' ks ih =>
    show restore (Function.update t k' (saved k')) saved ks k = _
    rw [ih]
    by_cases hk : k = k'
    · subst hk
      simp
    · simp [hk]

/-- The saved entries cover every key of `vs` and none of `us`. -/
theorem restore_suffix {us vs : List (Update κ β)} {ks : List κ}
    (hcover : ∀ v ∈ vs, v.key ∈ ks) (hapart : ∀ u ∈ us, u.key ∉ ks) (t : κ → β) :
    restore (apply t (us ++ vs)) t ks = apply t us := by
  funext k
  rw [restore_eq]
  split
  · next hk =>
    refine (apply_of_ne (fun u hu huk => hapart u hu ?_) t).symm
    rwa [huk]
  · next hk =>
    rw [apply_append]
    refine apply_of_ne (fun v hv hvk => hk ?_) _
    rw [← hvk]
    exact hcover v hv

/-- Rounds that were run inside another loop, and the last of which are undone. -/
theorem restore_rounds {ι : Type*} {l : List ι} {g : Nat → ι → List (Update κ β)} {n m : Nat}
    {ks : List κ} (hone : OneRound (List.range m) l g) (hn : n ≤ m)
    (hcover : ∀ j, n ≤ j → j < m → ∀ i ∈ l, ∀ u ∈ g j i, u.key ∈ ks)
    (hapart : ∀ j < n, ∀ i ∈ l, ∀ u ∈ g j i, u.key ∉ ks) (t : κ → β) :
    restore (apply t (l.flatMap fun i => (List.range m).flatMap fun j => g j i)) t ks =
      apply t ((List.range n).flatMap fun j => l.flatMap fun i => g j i) := by
  have hsplit : List.range m = List.range n ++ List.range' n (m - n) := by
    have happend := List.range'_append_1 (s := 0) (m := n) (n := m - n)
    rw [Nat.zero_add, Nat.add_sub_cancel' hn, ← List.range_eq_range', ← List.range_eq_range'] at happend
    exact happend.symm
  rw [← apply_swap List.nodup_range hone, hsplit, List.flatMap_append]
  refine restore_suffix (fun v hv => ?_) (fun u hu => ?_) t
  · simp only [List.mem_flatMap, List.mem_range'_1] at hv
    obtain ⟨j, hj, i, hi, hv⟩ := hv
    exact hcover j hj.1 (by omega) i hi v hv
  · simp only [List.mem_flatMap, List.mem_range] at hu
    obtain ⟨j, hj, i, hi, hu⟩ := hu
    exact hapart j hj i hi u hu

end Journal
