import Mathlib.Data.List.Basic
import Mathlib.Data.List.GetD
import Mathlib.Logic.Function.Basic

/-! # Flat memory regions

    A region is a function from offsets to elements; `read` and `write` are the two
    directions of a bulk copy between a region and a vector. The lemmas say which
    offsets a write reaches, and that writing back what was read is exact. -/

namespace Region

variable {α : Type*}

/-- `n` elements from offset `off` on. -/
def read (m : Nat → α) (off n : Nat) : List α :=
  (List.range n).map fun j => m (off + j)

/-- The elements of `l`, copied to offset `off`. -/
def write (m : Nat → α) (off : Nat) (l : List α) : Nat → α := fun j =>
  if off ≤ j then l[j - off]?.getD (m j) else m j

@[simp] theorem length_read (m : Nat → α) (off n : Nat) : (read m off n).length = n := by
  simp [read]

/-- A list, read back by index. -/
theorem map_getD_range (l : List α) (d : α) : (List.range l.length).map (l.getD · d) = l := by
  apply List.ext_getElem
  · rw [List.length_map, List.length_range]
  · intro i h h'
    rw [List.getElem_map, List.getElem_range, List.getD_eq_getElem _ _ h']

theorem getElem?_read (m : Nat → α) {off n i : Nat} (h : i < n) :
    (read m off n)[i]? = some (m (off + i)) := by
  simp [read, h]

theorem write_of_outside {m : Nat → α} {off : Nat} {l : List α} {j : Nat}
    (h : j < off ∨ off + l.length ≤ j) : write m off l j = m j := by
  unfold write
  split
  · next hle =>
    have hlen : l.length ≤ j - off := by omega
    rw [List.getElem?_eq_none hlen]
    rfl
  · rfl

theorem write_of_inside {m : Nat → α} {off : Nat} {l : List α} {i : Nat} {a : α}
    (h : l[i]? = some a) : write m off l (off + i) = a := by
  simp [write, h]

/-- Copying a range of one region over another. -/
theorem write_read (m m' : Nat → α) (off n j : Nat) :
    write m off (read m' off n) j = if off ≤ j ∧ j < off + n then m' j else m j := by
  split
  · next h =>
    obtain ⟨i, rfl⟩ := Nat.exists_eq_add_of_le h.1
    exact write_of_inside (getElem?_read m' (by omega))
  · next h =>
    refine write_of_outside ?_
    rw [length_read]
    omega

theorem take_drop_read (m : Nat → α) {off n a c : Nat} (h : a + c ≤ n) :
    ((read m off n).drop a).take c = read m (off + a) c := by
  apply List.ext_getElem?
  intro i
  by_cases hi : i < c
  · rw [List.getElem?_take_of_lt hi, List.getElem?_drop, getElem?_read m (by omega),
      getElem?_read m hi, Nat.add_assoc]
  · have hshort : (((read m off n).drop a).take c).length ≤ i := by
      rw [List.length_take]
      omega
    rw [List.getElem?_eq_none hshort, List.getElem?_eq_none (by rw [length_read]; omega)]

theorem read_congr {m m' : Nat → α} {off off' n : Nat}
    (h : ∀ i < n, m (off + i) = m' (off' + i)) : read m off n = read m' off' n :=
  List.map_congr_left fun i hi => h i (List.mem_range.mp hi)

theorem read_append (m : Nat → α) (off a b : Nat) :
    read m off (a + b) = read m off a ++ read m (off + a) b := by
  simp [read, List.range_add, Function.comp_def, Nat.add_assoc]

/-- What two ranges share, parts of them at the same distance share. -/
theorem read_part {m m' : Nat → α} {off off' n a c : Nat} (h : read m off n = read m' off' n)
    (hac : a + c ≤ n) : read m (off + a) c = read m' (off' + a) c := by
  rw [← take_drop_read m hac, h, take_drop_read m' hac]

theorem read_write_self (m : Nat → α) (off : Nat) (l : List α) :
    read (write m off l) off l.length = l := by
  apply List.ext_getElem?
  intro i
  by_cases hi : i < l.length
  · rw [getElem?_read _ hi, write_of_inside (List.getElem?_eq_getElem hi),
      List.getElem?_eq_getElem hi]
  · rw [List.getElem?_eq_none (by rw [length_read]; omega), List.getElem?_eq_none (by omega)]

/-! ### Rows

    A region as rows of `d` elements, row `r` at offset `r * d`. -/

section Rows

variable {β : Type*} {d : Nat}

theorem row_index_ne {r r' i j : Nat} (hi : i < d) (hj : j < d) (h : r ≠ r') :
    r * d + i ≠ r' * d + j := by
  intro heq
  apply h
  have hr : (r * d + i) / d = r := by
    rw [Nat.mul_comm, Nat.mul_add_div (by omega), Nat.div_eq_of_lt hi, Nat.add_zero]
  have hr' : (r' * d + j) / d = r' := by
    rw [Nat.mul_comm, Nat.mul_add_div (by omega), Nat.div_eq_of_lt hj, Nat.add_zero]
  rw [← hr, heq, hr']

theorem read_write_row (m : Nat → α) {r : Nat} {l : List α} (hl : l.length = d) :
    (fun r' => read (write m (r * d) l) (r' * d) d) =
      Function.update (fun r' => read m (r' * d) d) r l := by
  funext r'
  apply List.ext_getElem?
  intro i
  by_cases hi : i < d
  · rw [getElem?_read _ hi]
    by_cases hr : r' = r
    · subst hr
      have hil : i < l.length := by omega
      rw [Function.update_self, write_of_inside (List.getElem?_eq_getElem hil),
        List.getElem?_eq_getElem hil]
    · rw [Function.update_of_ne hr, getElem?_read _ hi]
      refine congrArg some (write_of_outside ?_)
      by_contra hin
      obtain ⟨j, hj⟩ := Nat.exists_eq_add_of_le (show r * d ≤ r' * d + i by omega)
      exact row_index_ne hi (show j < d by omega) hr hj
  · rw [List.getElem?_eq_none (by rw [length_read]; omega)]
    by_cases hr : r' = r
    · subst hr
      rw [Function.update_self, List.getElem?_eq_none (by omega)]
    · rw [Function.update_of_ne hr, List.getElem?_eq_none (by rw [length_read]; omega)]

/-- A loop of row writes, as a loop of updates of the table of rows. -/
theorem read_foldl_write_row {l : List β} {f : β → Nat} {v : β → List α}
    (hv : ∀ b ∈ l, (v b).length = d) (m : Nat → α) :
    (fun r => read (l.foldl (fun m b => write m (f b * d) (v b)) m) (r * d) d) =
      l.foldl (fun t b => Function.update t (f b) (v b)) (fun r => read m (r * d) d) := by
  induction l generalizing m with
  | nil => rfl
  | cons b l ih =>
    rw [List.foldl_cons, ih fun b' hb' => hv b' (List.mem_cons_of_mem _ hb'),
      read_write_row m (hv b List.mem_cons_self), List.foldl_cons]

/-- Two regions that agree row by row agree. -/
theorem read_eq_of_rows {m m' : Nat → α} {rows : Nat}
    (h : ∀ r, r < rows → read m (r * d) d = read m' (r * d) d) :
    read m 0 (rows * d) = read m' 0 (rows * d) := by
  apply List.map_congr_left
  intro j hj
  have hj' := List.mem_range.mp hj
  have hd : 0 < d := Nat.pos_of_mul_pos_left (Nat.lt_of_le_of_lt (Nat.zero_le j) hj')
  have hr : j / d < rows := Nat.div_lt_of_lt_mul (by rwa [Nat.mul_comm] at hj')
  have hmod : j % d < d := Nat.mod_lt _ hd
  have hrow := congrArg (fun l => l[j % d]?) (h (j / d) hr)
  simp only [getElem?_read _ hmod, Option.some.injEq, Nat.div_add_mod'] at hrow
  rw [Nat.zero_add, hrow]

/-- An element of rows that were concatenated. -/
theorem getElem?_flatMap_row {l : List β} {g : β → List α} (h : ∀ b ∈ l, (g b).length = d)
    {i j : Nat} (hj : j < d) : (l.flatMap g)[i * d + j]? = l[i]?.bind fun b => (g b)[j]? := by
  induction l generalizing i with
  | nil => simp
  | cons b l ih =>
    have hb := h b List.mem_cons_self
    rw [List.flatMap_cons]
    cases i with
    | zero => simp [List.getElem?_append_left (show j < (g b).length by omega)]
    | succ i =>
      have hoff : (i + 1) * d + j = (g b).length + (i * d + j) := by
        rw [hb, Nat.succ_mul]
        omega
      rw [hoff, List.getElem?_append_right (Nat.le_add_right _ _), Nat.add_sub_cancel_left,
        ih fun b' hb' => h b' (List.mem_cons_of_mem _ hb')]
      rfl

theorem take_drop_flatMap_row {l : List β} {g : β → List α} (h : ∀ b ∈ l, (g b).length = d)
    {i : Nat} {b : β} (hb : l[i]? = some b) : ((l.flatMap g).drop (i * d)).take d = g b := by
  have hlen := h b (List.mem_of_getElem? hb)
  apply List.ext_getElem?
  intro j
  by_cases hj : j < d
  · rw [List.getElem?_take_of_lt hj, List.getElem?_drop, getElem?_flatMap_row h hj, hb]
    rfl
  · rw [List.getElem?_eq_none (by rw [List.length_take]; omega), List.getElem?_eq_none (by omega)]

/-- A row of rows that were concatenated in two loops. -/
theorem take_drop_flatMap_rows {γ : Type*} {l : List β} {l' : List γ} {g : β → γ → List α}
    (h : ∀ b ∈ l, ∀ c ∈ l', (g b c).length = d) {i j : Nat} {b : β} {c : γ} (hb : l[i]? = some b)
    (hc : l'[j]? = some c) :
    ((l.flatMap fun b => l'.flatMap fun c => g b c).drop ((i * l'.length + j) * d)).take d =
      g b c := by
  have hpairs : (l.flatMap fun b => l'.flatMap fun c => g b c) =
      (l.flatMap fun b => l'.map fun c => (b, c)).flatMap fun p => g p.1 p.2 := by
    rw [List.flatMap_assoc]
    simp only [List.flatMap_map]
  have hj : j < l'.length := (List.getElem?_eq_some_iff.mp hc).1
  have hat : (l.flatMap fun b => l'.map fun c => (b, c))[i * l'.length + j]? = some (b, c) := by
    rw [getElem?_flatMap_row (fun b _ => by simp) hj, hb]
    simp [hc]
  rw [hpairs, take_drop_flatMap_row (b := (b, c)) _ hat]
  intro p hp
  simp only [List.mem_flatMap, List.mem_map] at hp
  obtain ⟨b', hb', c', hc', rfl⟩ := hp
  exact h b' hb' c' hc'

end Rows

end Region
