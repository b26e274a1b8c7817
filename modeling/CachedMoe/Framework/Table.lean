import Mathlib.Algebra.BigOperators.Group.List.Basic
import Mathlib.Algebra.Order.Ring.Nat
import Mathlib.Data.List.Nodup
import Mathlib.Data.List.Lattice

/-! # Tables

    A finite map as a list of entries, for maps whose order does not matter: `find`, `erase`
    and `put`, what they do to each other, and to a sum over the entries. -/

abbrev Table (κ α : Type) := List (κ × α)

namespace Table

variable {κ α : Type} [DecidableEq κ] {t : Table κ α} {k k' : κ} {a b : α}

def find (t : Table κ α) (k : κ) : Option α := (List.find? (fun e => e.1 = k) t).map Prod.snd

def erase (t : Table κ α) (k : κ) : Table κ α := t.filter fun e => e.1 ≠ k

/-- Replaces the entry of `k`. -/
def put (t : Table κ α) (k : κ) (a : α) : Table κ α := t.erase k ++ [(k, a)]

/-- Adds the entry of `k`, unless there is one. -/
def emplace (t : Table κ α) (k : κ) (a : α) : Table κ α :=
  if (t.find k).isSome then t else t ++ [(k, a)]

def keys (t : Table κ α) : List κ := t.map Prod.fst

@[simp]
theorem find_nil : find ([] : Table κ α) k = none :=
  rfl

@[simp]
theorem find_cons (e : κ × α) : find (e :: t) k = if e.1 = k then some e.2 else find t k := by
  unfold find
  rw [List.find?_cons]
  by_cases h : e.1 = k
  · simp [h]
  · simp [h]

@[simp]
theorem find_append {t' : Table κ α} : find (t ++ t') k = (find t k).or (find t' k) := by
  induction t with
  | nil => simp
  | cons e t ih =>
    rw [List.cons_append, find_cons, find_cons, ih]
    split
    · rfl
    · rfl

@[simp]
theorem find_erase : (t.erase k).find k' = if k' = k then none else t.find k' := by
  induction t with
  | nil => simp [erase]
  | cons e t ih =>
    have herase : erase (e :: t) k = if e.1 = k then erase t k else e :: erase t k := by
      unfold erase
      rw [List.filter_cons]
      by_cases h : e.1 = k
      · simp [h]
      · simp [h]
    rw [herase, find_cons]
    by_cases hek : e.1 = k
    · rw [if_pos hek, ih]
      split
      · rfl
      next hne => rw [if_neg fun heq => hne (heq.symm.trans hek)]
    · rw [if_neg hek, find_cons, ih]
      by_cases hk : e.1 = k'
      · rw [if_pos hk, if_pos hk, if_neg fun heq => hek (hk.trans heq)]
      · rw [if_neg hk, if_neg hk]

@[simp]
theorem find_put : (t.put k a).find k' = if k' = k then some a else t.find k' := by
  unfold put
  rw [find_append, find_erase]
  split
  next heq => simp [heq]
  next hne => simp [Ne.symm hne]

@[simp]
theorem find_emplace :
    (t.emplace k a).find k' = if k' = k then some ((t.find k).getD a) else t.find k' := by
  unfold emplace
  cases hk : t.find k with
  | none =>
    rw [if_neg (by simp), find_append, find_cons, find_nil]
    by_cases hkk : k' = k
    · simp [hkk, hk]
    · simp [hkk, Ne.symm hkk]
  | some b =>
    rw [if_pos (by simp)]
    split
    next heq => rw [heq, hk, Option.getD_some]
    next => rfl

theorem mem_of_find (h : t.find k = some a) : (k, a) ∈ t := by
  unfold find at h
  obtain ⟨e, he, rfl⟩ := Option.map_eq_some_iff.mp h
  have hkey := List.find?_some he
  rw [decide_eq_true_eq] at hkey
  rw [← hkey]
  exact List.mem_of_find?_eq_some he

theorem mem_erase {e : κ × α} : e ∈ t.erase k ↔ e ∈ t ∧ e.1 ≠ k := by
  simp [erase]

theorem mem_put {e : κ × α} : e ∈ t.put k a ↔ (e ∈ t ∧ e.1 ≠ k) ∨ e = (k, a) := by
  simp [put, mem_erase]

theorem find_none_iff : t.find k = none ↔ ∀ e ∈ t, e.1 ≠ k := by
  simp [find]

theorem erase_of_find_none (h : t.find k = none) : t.erase k = t := by
  unfold erase
  rw [List.filter_eq_self]
  intro e he
  simpa using find_none_iff.mp h e he

/-! ### Tables with each key once -/

theorem nodup_erase (h : t.keys.Nodup) : (t.erase k).keys.Nodup :=
  h.sublist ((List.filter_sublist).map Prod.fst)

theorem nodup_put (h : t.keys.Nodup) : (t.put k a).keys.Nodup := by
  have hkeys : (t.put k a).keys = (t.erase k).keys ++ [k] := by
    simp [put, keys]
  rw [hkeys, List.nodup_append]
  refine ⟨nodup_erase h, List.nodup_singleton k, ?_⟩
  intro x hx y hy hxy
  rw [List.mem_singleton.mp hy] at hxy
  obtain ⟨e, he, rfl⟩ := List.mem_map.mp hx
  exact (mem_erase.mp he).2 hxy

theorem find_of_mem (h : t.keys.Nodup) (hmem : (k, a) ∈ t) : t.find k = some a := by
  induction t with
  | nil => cases hmem
  | cons e t ih =>
    obtain ⟨hnot, hrest⟩ := List.nodup_cons.mp h
    rw [find_cons]
    rcases List.mem_cons.mp hmem with rfl | htail
    · rw [if_pos rfl]
    · have hne : e.1 ≠ k := fun heq => hnot (heq ▸ List.mem_map_of_mem htail)
      rw [if_neg hne]
      exact ih hrest htail

/-- A sum over the entries, split at one key. -/
theorem sum_erase (h : t.keys.Nodup) (f : α → Nat) (k : κ) :
    ((t.erase k).map fun e => f e.2).sum + (t.find k).elim 0 f = (t.map fun e => f e.2).sum := by
  induction t with
  | nil => rfl
  | cons e t ih =>
    obtain ⟨hnot, hrest⟩ := List.nodup_cons.mp h
    have hih := ih hrest
    rw [find_cons]
    by_cases hek : e.1 = k
    · have hnone : find t k = none := by
        rw [find_none_iff]
        intro e' he' heq
        exact hnot (hek ▸ heq ▸ List.mem_map_of_mem he')
      have herase : erase (e :: t) k = erase t k := by simp [erase, hek]
      rw [hnone] at hih
      rw [herase, if_pos hek, List.map_cons, List.sum_cons]
      simp only [Option.elim_none, Option.elim_some] at hih ⊢
      omega
    · have herase : erase (e :: t) k = e :: erase t k := by simp [erase, hek]
      rw [herase, if_neg hek, List.map_cons, List.sum_cons, List.map_cons, List.sum_cons]
      omega

theorem sum_put (h : t.keys.Nodup) (f : α → Nat) (k : κ) (a : α) :
    ((t.put k a).map fun e => f e.2).sum + (t.find k).elim 0 f = (t.map fun e => f e.2).sum + f a := by
  have herase := sum_erase h f k
  unfold put
  rw [List.map_append, List.sum_append, List.map_singleton, List.sum_singleton]
  dsimp only
  omega

theorem mem_keys_erase : k' ∈ (t.erase k).keys ↔ k' ∈ t.keys ∧ k' ≠ k := by
  unfold keys
  constructor
  · intro h
    obtain ⟨e, he, rfl⟩ := List.mem_map.mp h
    obtain ⟨hmem, hne⟩ := mem_erase.mp he
    exact ⟨List.mem_map_of_mem hmem, hne⟩
  · intro h
    obtain ⟨e, he, rfl⟩ := List.mem_map.mp h.1
    exact List.mem_map_of_mem (mem_erase.mpr ⟨he, h.2⟩)

theorem mem_keys_put : k' ∈ (t.put k a).keys ↔ k' = k ∨ k' ∈ t.keys := by
  have hkeys : (t.put k a).keys = (t.erase k).keys ++ [k] := by
    simp [put, keys]
  rw [hkeys, List.mem_append, List.mem_singleton, mem_keys_erase]
  by_cases h : k' = k
  · simp [h]
  · simp [h]

theorem exists_find_of_mem_keys (h : k ∈ t.keys) : ∃ a, t.find k = some a := by
  obtain ⟨e, he, rfl⟩ := List.mem_map.mp h
  cases hfind : t.find e.1 with
  | none => exact absurd rfl (find_none_iff.mp hfind e he)
  | some a => exact ⟨a, rfl⟩

/-! ### The keys in an order -/

/-- `order` lists the keys of the table, each once. -/
structure Listed (order : List κ) (t : Table κ α) : Prop where
  nodup : order.Nodup
  nodup_keys : t.keys.Nodup
  mem_iff : ∀ k, k ∈ order ↔ k ∈ t.keys

namespace Listed

variable {order : List κ}

omit [DecidableEq κ] in
theorem nil : Listed [] ([] : Table κ α) :=
  ⟨.nil, .nil, fun _ => Iff.rfl⟩

omit [DecidableEq κ] in
theorem perm (h : Listed order t) : order.Perm t.keys :=
  (List.perm_ext_iff_of_nodup h.nodup h.nodup_keys).mpr h.mem_iff

theorem find (h : Listed order t) (hk : k ∈ order) : ∃ a, t.find k = some a :=
  exists_find_of_mem_keys ((h.mem_iff k).mp hk)

theorem erase [BEq κ] [LawfulBEq κ] (h : Listed order t) (k : κ) :
    Listed (order.filter (· != k)) (t.erase k) := by
  refine ⟨h.nodup.filter _, nodup_erase h.nodup_keys, ?_⟩
  intro k'
  rw [List.mem_filter, mem_keys_erase, h.mem_iff, bne_iff_ne]

/-- The key that is put becomes the first. -/
theorem put [BEq κ] [LawfulBEq κ] (h : Listed order t) (k : κ) (a : α) :
    Listed (k :: order.filter (· != k)) (t.put k a) := by
  refine ⟨?_, nodup_put h.nodup_keys, ?_⟩
  · rw [List.nodup_cons]
    refine ⟨?_, h.nodup.filter _⟩
    intro hmem
    simpa using (List.mem_filter.mp hmem).2
  · intro k'
    rw [List.mem_cons, List.mem_filter, mem_keys_put, h.mem_iff, bne_iff_ne]
    by_cases heq : k' = k
    · simp [heq]
    · simp [heq]

theorem erase_last (h : Listed order t) (hk : order.getLast? = some k) :
    Listed order.dropLast (t.erase k) := by
  obtain ⟨init, rfl⟩ := List.getLast?_eq_some_iff.mp hk
  rw [List.dropLast_concat]
  obtain ⟨hinit, _, hdisjoint⟩ := List.nodup_append.mp h.nodup
  refine ⟨hinit, nodup_erase h.nodup_keys, ?_⟩
  intro k'
  rw [mem_keys_erase, ← h.mem_iff, List.mem_append, List.mem_singleton]
  constructor
  · intro hmem
    exact ⟨.inl hmem, hdisjoint k' hmem k (List.mem_singleton_self k)⟩
  · intro hmem
    exact hmem.1.resolve_right hmem.2

omit [DecidableEq κ] in
theorem length_eq (h : Listed order t) : order.length = t.length := by
  rw [h.perm.length_eq]
  exact List.length_map ..

theorem erase_first (h : Listed (k :: order) t) : Listed order (t.erase k) := by
  obtain ⟨hk, horder⟩ := List.nodup_cons.mp h.nodup
  refine ⟨horder, nodup_erase h.nodup_keys, ?_⟩
  intro k'
  rw [mem_keys_erase, ← h.mem_iff, List.mem_cons]
  constructor
  · intro hmem
    refine ⟨.inr hmem, ?_⟩
    rintro rfl
    exact hk hmem
  · intro hmem
    exact hmem.1.resolve_left hmem.2

/-- A new key becomes the last. -/
theorem emplace_last (h : Listed order t) (hk : t.find k = none) (a : α) :
    Listed (order ++ [k]) (t.emplace k a) := by
  have hnew : t.emplace k a = t ++ [(k, a)] := by
    unfold emplace
    rw [hk]
    rfl
  have hkeys : (t.emplace k a).keys = t.keys ++ [k] := by
    rw [hnew]
    exact List.map_append ..
  have hout : k ∉ t.keys := by
    intro hmem
    obtain ⟨b, hb⟩ := exists_find_of_mem_keys hmem
    rw [hk] at hb
    cases hb
  refine ⟨?_, ?_, ?_⟩
  · exact List.nodup_append.mpr ⟨h.nodup, List.nodup_singleton k, fun x hx y hy hxy =>
      hout (List.mem_singleton.mp hy ▸ hxy ▸ (h.mem_iff x).mp hx)⟩
  · rw [hkeys]
    exact List.nodup_append.mpr ⟨h.nodup_keys, List.nodup_singleton k, fun x hx y hy hxy =>
      hout (List.mem_singleton.mp hy ▸ hxy ▸ hx)⟩
  · intro k'
    rw [hkeys, List.mem_append, List.mem_append, h.mem_iff]

end Listed

end Table
