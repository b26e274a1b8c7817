import CachedMoe.Framework.Region
import Mathlib.Data.List.Induction
import Mathlib.Data.List.Perm.Basic
import Mathlib.Order.Basic

/-! # Counting sort

    Items are counted by key, each key gets the range of places after the ranges of the
    smaller keys, and a second pass puts every item at the next free place of its key:

    * `counts`, `starts`: the first pass and the ranges;
    * `Fill.put`, `fill`: the second pass;
    * `Filled`: what holds after a part of the items; the range of a key has its items in
      the order they came.

    Keys are numbers; nothing here names what the items are. -/

namespace CountingSort

variable {ι α : Type*} (key : ι → Nat)

/-! ### Buckets -/

/-- The items of one key, in their order. -/
def bucket (l : List ι) (e : Nat) : List ι := l.filter fun x => key x = e

theorem bucket_append (l l' : List ι) (e : Nat) :
    bucket key (l ++ l') e = bucket key l e ++ bucket key l' e :=
  List.filter_append ..

theorem bucket_singleton_self (x : ι) : bucket key [x] (key x) = [x] := by
  simp [bucket]

theorem bucket_singleton_ne {x : ι} {e : Nat} (h : e ≠ key x) : bucket key [x] e = [] := by
  simp [bucket, Ne.symm h]

/-- The buckets of the keys below a bound, one after the other. -/
theorem flatMap_bucket_perm (l : List ι) (E : Nat) :
    ((List.range E).flatMap (bucket key l)).Perm (l.filter fun x => key x < E) := by
  induction E with
  | zero =>
    have hnone : (l.filter fun x => key x < 0) = [] := by simp
    rw [hnone]
    exact .refl _
  | succ E ih =>
    rw [List.range_succ, List.flatMap_append, List.flatMap_singleton]
    refine (ih.append_right _).trans ?_
    have hsplit := List.filter_append_perm (fun x => key x < E) (l.filter fun x => key x < E + 1)
    rw [List.filter_filter, List.filter_filter] at hsplit
    refine .trans (.of_eq ?_) hsplit
    congr 1
    · apply List.filter_congr
      intro x _
      by_cases h : key x < E
      · simp [h, Nat.lt_succ_of_lt h]
      · simp [h]
    · apply List.filter_congr
      intro x _
      by_cases h : key x < E
      · simp [h, Nat.ne_of_lt h]
      · have hiff : key x = E ↔ key x < E + 1 := by omega
        simp [h, hiff]

/-! ### Counts -/

/-- The counting loop. -/
def counts (l : List ι) : Nat → Nat :=
  l.foldl (fun c x => Function.update c (key x) (c (key x) + 1)) fun _ => 0

theorem counts_eq (l : List ι) (e : Nat) : counts key l e = (bucket key l e).length := by
  induction l using List.reverseRecOn with
  | nil => rfl
  | append_singleton l x ih =>
    rw [counts, List.foldl_append, List.foldl_cons, List.foldl_nil, ← counts, bucket_append,
      List.length_append]
    by_cases h : e = key x
    · rw [h, Function.update_self, bucket_singleton_self, ← h, ih, List.length_singleton]
    · rw [Function.update_of_ne h, bucket_singleton_ne key h, ih, List.length_nil, Nat.add_zero]

/-! ### Ranges -/

/-- The first place of each key. -/
def starts (count : Nat → Nat) : Nat → Nat
  | 0 => 0
  | e + 1 => starts count e + count e

variable {count : Nat → Nat}

theorem starts_mono {e e' : Nat} (h : e ≤ e') : starts count e ≤ starts count e' := by
  induction h with
  | refl => exact Nat.le_refl _
  | step _ ih => exact Nat.le_trans ih (Nat.le_add_right _ _)

/-- The ranges of two keys do not overlap. -/
theorem place_ne {e e' i j : Nat} (hi : i < count e) (hj : j < count e') (h : e ≠ e') :
    starts count e + i ≠ starts count e' + j := by
  rcases Nat.lt_or_gt_of_ne h with hlt | hlt
  · have hnext : starts count e + count e ≤ starts count e' := starts_mono (Nat.succ_le_of_lt hlt)
    omega
  · have hnext : starts count e' + count e' ≤ starts count e := starts_mono (Nat.succ_le_of_lt hlt)
    omega

/-- The ranges take as many places as there are items with smaller keys. -/
theorem starts_counts (l : List ι) (E : Nat) :
    starts (counts key l) E = (l.filter fun x => key x < E).length := by
  rw [← (flatMap_bucket_perm key l E).length_eq]
  induction E with
  | zero => rfl
  | succ E ih =>
    rw [starts, ih, counts_eq, List.range_succ, List.flatMap_append, List.length_append,
      List.flatMap_singleton]

/-! ### Filling -/

/-- The output, and the next free place of each key. -/
structure Fill (α : Type*) where
  out : Nat → α
  next : Nat → Nat

def Fill.put (s : Fill α) (e : Nat) (v : α) : Fill α where
  out := Function.update s.out (s.next e) v
  next := Function.update s.next e (s.next e + 1)

theorem Fill.next_put_self (s : Fill α) (e : Nat) (v : α) : (s.put e v).next e = s.next e + 1 :=
  Function.update_self ..

theorem Fill.next_put_ne (s : Fill α) {e e' : Nat} (v : α) (h : e' ≠ e) :
    (s.put e v).next e' = s.next e' :=
  Function.update_of_ne h ..

def fill (val : ι → α) (s : Fill α) (l : List ι) : Fill α :=
  l.foldl (fun s x => s.put (key x) (val x)) s

/-- The items `l` are in their places. -/
structure Filled (count : Nat → Nat) (val : ι → α) (l : List ι) (s : Fill α) : Prop where
  next : ∀ e, s.next e = starts count e + (bucket key l e).length
  places : ∀ e, Region.read s.out (starts count e) (bucket key l e).length =
    (bucket key l e).map val

variable {key}

/-- One item goes behind those of its key. -/
theorem Filled.put {val : ι → α} {l : List ι} {s : Fill α} (h : Filled key count val l s) (x : ι)
    (hroom : ∀ e, (bucket key (l ++ [x]) e).length ≤ count e) :
    Filled key count val (l ++ [x]) (s.put (key x) (val x)) where
  next := by
    intro e
    rw [bucket_append, List.length_append]
    by_cases he : e = key x
    · subst he
      rw [Fill.next_put_self, bucket_singleton_self, List.length_singleton, h.next, Nat.add_assoc]
    · rw [Fill.next_put_ne _ _ he, bucket_singleton_ne key he, h.next]
      rfl
  places := by
    intro e
    have hx := hroom (key x)
    rw [bucket_append, bucket_singleton_self, List.length_append, List.length_singleton] at hx
    -- The place the item goes to is behind those of its own key and apart from the others.
    have hsame : ∀ j < (bucket key l e).length,
        (s.put (key x) (val x)).out (starts count e + j) = s.out (starts count e + j) := by
      intro j hj
      apply Function.update_of_ne
      rw [h.next]
      by_cases he : e = key x
      · subst he
        omega
      · have hle := hroom e
        rw [bucket_append, List.length_append] at hle
        exact place_ne (by omega) (by omega) he
    have hold : Region.read (s.put (key x) (val x)).out (starts count e)
        (bucket key l e).length = (bucket key l e).map val := by
      rw [← h.places e]
      apply List.map_congr_left
      intro j hj
      exact hsame j (List.mem_range.mp hj)
    by_cases he : e = key x
    · subst he
      rw [bucket_append, bucket_singleton_self, List.length_append, List.length_singleton,
        List.map_append, List.map_singleton, ← hold, Region.read, List.range_succ,
        List.map_append, List.map_singleton, ← h.next (key x)]
      congr 2
      exact Function.update_self ..
    · rw [bucket_append, bucket_singleton_ne key he, List.append_nil]
      exact hold

variable (key) in
/-- The second pass puts every item in its place. -/
theorem filled_fill (val : ι → α) (l : List ι) (out : Nat → α) :
    Filled key (counts key l) val l
      (fill key val { out := out, next := starts (counts key l) } l) := by
  have hpart : ∀ l', l' <+: l → Filled key (counts key l) val l'
      (fill key val { out := out, next := starts (counts key l) } l') := by
    intro l'
    induction l' using List.reverseRecOn with
    | nil => exact fun _ => ⟨fun e => rfl, fun e => rfl⟩
    | append_singleton l' x ih =>
      intro hpre
      have hbefore := ih ((List.prefix_append l' [x]).trans hpre)
      rw [fill, List.foldl_append]
      apply hbefore.put
      intro e
      rw [counts_eq]
      exact (hpre.sublist.filter _).length_le
  exact hpart l (List.prefix_refl l)

end CountingSort
