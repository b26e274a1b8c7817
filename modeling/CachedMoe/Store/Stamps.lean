import CachedMoe.Store.Atomic

/-! # Stamps

    What an operation leaves of a slot that is held: unless it uses the expert, reports on the
    slot or evicts it, the key, the state and the stamp of the last use stay. -/

namespace CachedMoe.Store

open CachedMoe ExpertStore

variable {st st' : ExpertStore} {op : Op}

/-- The index finds less than before. -/
theorem release_index {i slot : Nat} {key : ExpertKey}
    (h : (st.release_locked slot).index key = some i) : st.index key = some i := by
  by_cases hkey : key = (st.slots slot).key
  · subst hkey
    simp [release_locked] at h
  · simpa [release_locked, Function.update_of_ne hkey] using h

/-- A slot that is not used is not used after a change that keeps its state or frees it. -/
theorem Op.not_used {i : Nat} (h : op.uses st i = false)
    (hindex : ∀ key, st'.index key = some i → st.index key = some i)
    (hstate : (st'.slots i).state = .Free ∨ (st'.slots i).state = (st.slots i).state) :
    op.uses st' i = false := by
  cases op with
  | lookup key =>
    rcases hstate with hfree | hsame
    · simp [Op.uses, hfree]
    · by_cases hkey : st'.index key = some i
      · simpa [Op.uses, hkey, hindex key hkey, hsame] using h
      · simp [Op.uses, hkey]
  | touch key =>
    rcases hstate with hfree | hsame
    · simp [Op.uses, hfree]
    · by_cases hkey : st'.index key = some i
      · simpa [Op.uses, hkey, hindex key hkey, hsame] using h
      · simp [Op.uses, hkey]
  | _ => rfl

/-- A write that neither uses an expert nor reports on its slot leaves its stamp. -/
theorem Write.last_use (h : Write op st st') (hbegins : op.begins = none) {i : Nat}
    (hreports : op.finishes ≠ some i) (huses : op.uses st i = false) :
    op.uses st' i = false ∧ (st'.slots i).last_use_token = (st.slots i).last_use_token := by
  -- slot `j` is written, which is another one or keeps its stamp
  have hupdate : ∀ (j : Nat) (s : ExpertSlot),
      (i = j → s.last_use_token = (st.slots j).last_use_token ∧
        (s.state = .Free ∨ s.state = (st.slots j).state)) →
      (Function.update st.slots j s i).last_use_token = (st.slots i).last_use_token ∧
        ((Function.update st.slots j s i).state = .Free ∨
          (Function.update st.slots j s i).state = (st.slots i).state) := by
    intro j s hs
    by_cases hij : i = j
    · rw [hij, Function.update_self]
      exact hs hij
    · rw [Function.update_of_ne hij]
      exact ⟨rfl, .inr rfl⟩
  have hkept : (∀ key, st'.index key = some i → st.index key = some i) →
      (st'.slots i).last_use_token = (st.slots i).last_use_token ∧
        ((st'.slots i).state = .Free ∨ (st'.slots i).state = (st.slots i).state) →
      op.uses st' i = false ∧ (st'.slots i).last_use_token = (st.slots i).last_use_token :=
    fun hindex hslot => ⟨Op.not_used huses hindex hslot.2, hslot.1⟩
  cases h with
  | count | path_b | evict_path | fix | complete => exact hkept (fun _ => id) ⟨rfl, .inr rfl⟩
  | decay => exact hkept (fun _ => id) ⟨rfl, .inr rfl⟩
  | guard_all =>
    refine hkept (fun _ => id) ?_
    dsimp only
    split
    · exact ⟨rfl, .inr rfl⟩
    · exact ⟨rfl, .inr rfl⟩
  | stamp _ _ j token guard hused =>
    have hij : i ≠ j := by
      rintro rfl
      rw [huses] at hused
      cases hused
    exact hkept (fun _ => id) (hupdate j _ fun heq => absurd heq hij)
  | guard _ _ j guard => exact hkept (fun _ => id) (hupdate j _ fun _ => ⟨rfl, .inr rfl⟩)
  | note _ _ _ _ j => exact hkept (fun _ => id) (hupdate j _ fun _ => ⟨rfl, .inr rfl⟩)
  | pin _ _ j => exact hkept (fun _ => id) (hupdate j _ fun _ => ⟨rfl, .inr rfl⟩)
  | lay_out _ _ j => exact hkept (fun _ => id) (hupdate j _ fun _ => ⟨rfl, .inr rfl⟩)
  | land _ _ j => exact hkept (fun _ => id) (hupdate j _ fun _ => ⟨rfl, .inr rfl⟩)
  | reserve _ _ _ _ _ _ hkey =>
    rw [hbegins] at hkey
    cases hkey
  | settle _ _ j ok token hslot =>
    have hij : i ≠ j := by
      rintro rfl
      exact hreports hslot
    cases ok with
    | true => exact hkept (fun _ => id) (hupdate j _ fun heq => absurd heq hij)
    | false => exact hkept (fun _ => release_index) (hupdate j _ fun heq => absurd heq hij)
  | recycle _ _ j => exact hkept (fun _ => release_index) (hupdate j _ fun _ => ⟨rfl, .inl rfl⟩)

/-- Without a use, a report or a fill the stamp of a slot stays. -/
theorem apply_last_use (hop : op.keeps_contents) (hbegins : op.begins = none) {i : Nat}
    (hreports : op.finishes ≠ some i) (huses : op.uses st i = false) :
    ((st.apply op).slots i).last_use_token = (st.slots i).last_use_token := by
  have hstep : ∀ st st', Write op st st' → op.uses st i = false →
      op.uses st' i = false ∧ (st'.slots i).last_use_token = (st.slots i).last_use_token :=
    fun st st' h huses => h.last_use hbegins hreports huses
  refine (apply_of_writes (R := fun st st' => op.uses st i = false →
    op.uses st' i = false ∧ (st'.slots i).last_use_token = (st.slots i).last_use_token) ?_ ?_
    hstep hop huses).2
  · exact fun st huses => ⟨huses, rfl⟩
  · intro st st₁ st₂ h h' huses
    obtain ⟨huses₁, hsame⟩ := h huses
    obtain ⟨huses₂, hsame'⟩ := h' huses₁
    exact ⟨huses₂, hsame'.trans hsame⟩

/-- A fill takes a free slot, and leaves the others. -/
theorem begin_other (hinv : Inv st) {key : ExpertKey} (hop : op.begins = some key) {i : Nat}
    (hused : (st.slots i).state ≠ .Free) : (st.apply op).slots i = st.slots i := by
  cases op with
  | begin_fill k entry tier =>
    rw [apply]
    cases hres : st.begin_fill k entry tier with
    | mk r st₁ =>
      cases r with
      | error e =>
        obtain rfl := begin_fill_error hres
        rfl
      | ok res =>
        obtain ⟨-, -, hfree, -, hother⟩ := begin_fill_ok hinv hres
        exact hother i fun heq => hused (heq ▸ hfree)
  | begin_fill_synthetic k tier =>
    rw [apply]
    unfold ExpertStore.begin_fill_synthetic
    rcases reserve_locked_cases st k tier with ⟨e, he⟩ | ⟨slot, rest, addr, -, -, -, hfree, hres⟩
    · rw [he]
    · rw [hres]
      have hne : i ≠ slot := by
        rintro rfl
        exact hused ((hinv.free_list.2 i).mp (hfree ▸ List.mem_cons_self)).2
      simp [taken, ExpertStore.set_slot, Function.update_of_ne hne]
  | _ => cases hop

/-- The state and the key of a slot that is held survive what does not report on it, unless its
    expert is evicted. -/
theorem Inv.apply_state (hinv : Inv st) (hop : op.keeps_contents) {i : Nat}
    (hused : (st.slots i).state ≠ .Free) (hreports : op.finishes ≠ some i) :
    (st.slots i).state = .Resident ∧ ((st.apply op).slots i).state = .Free ∨
      ((st.apply op).slots i).key = (st.slots i).key ∧
        ((st.apply op).slots i).state = (st.slots i).state := by
  cases hstate : (st.slots i).state with
  | Free => exact absurd hstate hused
  | Filling =>
    have hsame := apply_same_fill hstate hinv hop hreports
    exact .inr ⟨hsame.key, hsame.state.trans hstate⟩
  | Resident =>
    obtain ⟨st₁, hkeep, hmove⟩ := hinv.apply_effect hop
    have hslot := hkeep.slots i
    have hres : (st₁.slots i).state = .Resident := hslot.state.trans hstate
    -- the one slot a move changes
    have hone : ∀ {j : Nat} {s : ExpertSlot}, OneSlot st₁ (st.apply op) j s → i ≠ j →
        ((st.apply op).slots i).key = (st.slots i).key ∧
          ((st.apply op).slots i).state = .Resident := by
      intro j s hone hij
      rw [hone.other hij]
      exact ⟨hslot.key, hres⟩
    cases hmove with
    | stay heq =>
      rw [heq]
      exact .inr ⟨hslot.key, hres⟩
    | fill j k s hmove =>
      refine .inr (hone (hmove.one_slot (hkeep.inv hinv)) ?_)
      rintro rfl
      have hfree := (hmove.was_free (hkeep.inv hinv)).2
      rw [hres] at hfree
      cases hfree
    | publish j s hmove =>
      refine .inr (hone hmove.one_slot ?_)
      rintro rfl
      have hfilling := hmove.filling
      rw [hres] at hfilling
      cases hfilling
    | drop j s hmove =>
      by_cases hij : i = j
      · subst hij
        exact .inl ⟨rfl, by rw [hmove.one_slot.self, hmove.state]⟩
      · exact .inr (hone hmove.one_slot hij)
    | pin j s hmove =>
      by_cases hij : i = j
      · subst hij
        have hself := (hmove.one_slot (hkeep.inv hinv)).self
        exact .inr ⟨by rw [hself, hmove.key, hslot.key], by rw [hself, hmove.state]⟩
      · exact .inr (hone (hmove.one_slot (hkeep.inv hinv)) hij)

/-- A slot that is held survives what neither uses it nor reports on it, unless its expert is
    evicted. -/
theorem Inv.apply_held (hinv : Inv st) (hop : op.keeps_contents) {i : Nat}
    (hused : (st.slots i).state ≠ .Free) (hreports : op.finishes ≠ some i)
    (huses : op.uses st i = false) :
    (st.slots i).state = .Resident ∧ ((st.apply op).slots i).state = .Free ∨
      ((st.apply op).slots i).key = (st.slots i).key ∧
        ((st.apply op).slots i).state = (st.slots i).state ∧
        ((st.apply op).slots i).last_use_token = (st.slots i).last_use_token := by
  cases hbegins : op.begins with
  | some key =>
    rw [begin_other hinv hbegins hused]
    exact .inr ⟨rfl, rfl, rfl⟩
  | none =>
    have hstamp := apply_last_use hop hbegins hreports huses
    exact (hinv.apply_state hop hused hreports).imp_right fun h => ⟨h.1, h.2, hstamp⟩

end CachedMoe.Store
