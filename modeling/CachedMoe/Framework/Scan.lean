import Mathlib.Data.List.Basic

/-! # Scanning

    An input cut into units from the left: at each place the scanner reads one unit, a stretch
    that starts none, or a proper beginning of one that the input ends inside. The scanner never
    looks past what it reports, so a verdict other than `Incomplete` does not change when the
    input goes on; what the units of a prefix say about the units of the whole input follows. -/

namespace Scan

inductive Verdict (β : Type) where
  | Ok (value : β)
  | Invalid
  | Incomplete
  deriving Repr, DecidableEq

namespace Verdict

variable {β : Type}

def isIncomplete : Verdict β → Bool
  | Incomplete => true
  | _ => false

/-- What an incomplete unit turns out to be when something else follows. -/
def closed : Verdict β → Verdict β
  | Incomplete => Invalid
  | v => v

theorem closed_eq_self {v : Verdict β} (h : v.isIncomplete = false) : v.closed = v := by
  cases v with
  | Ok value => rfl
  | Invalid => rfl
  | Incomplete => simp [isIncomplete] at h

end Verdict

/-- `next` reads the head of a nonempty input: the verdict and how much it covers. A symbol that
    `starts` something never continues a unit begun before it. -/
structure Scanner (α β : Type) where
  next : List α → Verdict β × Nat
  starts : α → Prop
  pos : ∀ a s, 0 < (next (a :: s)).2
  le : ∀ a s, (next (a :: s)).2 ≤ (a :: s).length
  stable : ∀ a s t, (next (a :: s)).1.isIncomplete = false → next (a :: s ++ t) = next (a :: s)
  whole : ∀ a s, (next (a :: s)).1.isIncomplete = true → (next (a :: s)).2 = (a :: s).length
  cut : ∀ a s b t, (next (a :: s)).1.isIncomplete = true → starts b →
    next (a :: s ++ b :: t) = (.Invalid, (a :: s).length)

namespace Scanner

variable {α β : Type} (sc : Scanner α β)

/-! ### The units of an input -/

def unitsFrom : Nat → List α → List (Verdict β × List α)
  | 0, _ => []
  | _ + 1, [] => []
  | n + 1, a :: s =>
    let (v, len) := sc.next (a :: s)
    (v, (a :: s).take len) :: unitsFrom n ((a :: s).drop len)

def units (s : List α) : List (Verdict β × List α) := sc.unitsFrom s.length s

/-- The units the input covers whole. -/
def finished (s : List α) : List (Verdict β × List α) :=
  (sc.units s).filter fun u => !u.1.isIncomplete

/-- The beginning of a unit the input ends in. -/
def pending (s : List α) : List α :=
  ((sc.units s).filter fun u => u.1.isIncomplete).flatMap Prod.snd

theorem length_drop_next_lt (a : α) (s : List α) :
    ((a :: s).drop (sc.next (a :: s)).2).length < (a :: s).length := by
  have hpos := sc.pos a s
  rw [List.length_drop]
  have hlen : 0 < (a :: s).length := Nat.succ_pos _
  omega

theorem unitsFrom_of_le {n m : Nat} {s : List α} (hn : s.length ≤ n) (hm : s.length ≤ m) :
    sc.unitsFrom n s = sc.unitsFrom m s := by
  induction n generalizing m s with
  | zero =>
    have hs : s = [] := List.length_eq_zero_iff.mp (Nat.le_zero.mp hn)
    subst hs
    cases m with
    | zero => rfl
    | succ m => rfl
  | succ n ih =>
    cases s with
    | nil =>
      cases m with
      | zero => rfl
      | succ m => rfl
    | cons a s =>
      cases m with
      | zero => simp at hm
      | succ m =>
        have hlt := sc.length_drop_next_lt a s
        have hrest : sc.unitsFrom n ((a :: s).drop (sc.next (a :: s)).2) =
            sc.unitsFrom m ((a :: s).drop (sc.next (a :: s)).2) :=
          ih (Nat.le_of_lt_succ (Nat.lt_of_lt_of_le hlt hn))
            (Nat.le_of_lt_succ (Nat.lt_of_lt_of_le hlt hm))
        exact congrArg (List.cons _) hrest

@[simp]
theorem units_nil : sc.units [] = [] :=
  rfl

theorem units_cons (a : α) (s : List α) :
    sc.units (a :: s) = ((sc.next (a :: s)).1, (a :: s).take (sc.next (a :: s)).2) ::
      sc.units ((a :: s).drop (sc.next (a :: s)).2) := by
  have hlt := sc.length_drop_next_lt a s
  have hrest : sc.unitsFrom s.length ((a :: s).drop (sc.next (a :: s)).2) =
      sc.units ((a :: s).drop (sc.next (a :: s)).2) :=
    sc.unitsFrom_of_le (Nat.lt_succ_iff.mp hlt) (Nat.le_refl _)
  exact congrArg (List.cons _) hrest

/-- Induction over the units: an input is empty, or a unit and the rest. -/
theorem units_induction {motive : List α → Prop} (nil : motive [])
    (cons : ∀ a s, motive ((a :: s).drop (sc.next (a :: s)).2) → motive (a :: s))
    (s : List α) : motive s := by
  induction hn : s.length using Nat.strongRecOn generalizing s with
  | _ n ih =>
    cases s with
    | nil => exact nil
    | cons a s =>
      subst hn
      exact cons a s (ih _ (sc.length_drop_next_lt a s) _ rfl)

/-! ### A scan that goes on -/

theorem units_incomplete {a : α} {s : List α} (h : (sc.next (a :: s)).1.isIncomplete = true) :
    sc.units (a :: s) = [((sc.next (a :: s)).1, a :: s)] := by
  rw [units_cons, sc.whole a s h, List.take_length, List.drop_length, units_nil]

theorem finished_incomplete {a : α} {s : List α}
    (h : (sc.next (a :: s)).1.isIncomplete = true) : sc.finished (a :: s) = [] := by
  unfold finished
  rw [sc.units_incomplete h]
  simp [h]

theorem pending_incomplete {a : α} {s : List α}
    (h : (sc.next (a :: s)).1.isIncomplete = true) : sc.pending (a :: s) = a :: s := by
  unfold pending
  rw [sc.units_incomplete h]
  simp [h]

theorem finished_cons {a : α} {s : List α} (h : (sc.next (a :: s)).1.isIncomplete = false) :
    sc.finished (a :: s) = ((sc.next (a :: s)).1, (a :: s).take (sc.next (a :: s)).2) ::
      sc.finished ((a :: s).drop (sc.next (a :: s)).2) := by
  unfold finished
  rw [units_cons]
  simp [h]

theorem pending_cons {a : α} {s : List α} (h : (sc.next (a :: s)).1.isIncomplete = false) :
    sc.pending (a :: s) = sc.pending ((a :: s).drop (sc.next (a :: s)).2) := by
  unfold pending
  rw [units_cons]
  simp [h]

theorem finished_append_pending (s : List α) :
    (sc.finished s).flatMap Prod.snd ++ sc.pending s = s := by
  induction s using sc.units_induction with
  | nil => rfl
  | cons a s ih =>
    cases h : (sc.next (a :: s)).1.isIncomplete with
    | true => rw [sc.finished_incomplete h, sc.pending_incomplete h, List.flatMap_nil,
        List.nil_append]
    | false =>
      rw [sc.finished_cons h, sc.pending_cons h, List.flatMap_cons, List.append_assoc, ih]
      exact List.take_append_drop _ _

/-- The units of a longer input: what was finished stays, and the scan goes on from the pending
    beginning. -/
theorem units_append (s t : List α) :
    sc.units (s ++ t) = sc.finished s ++ sc.units (sc.pending s ++ t) := by
  induction s using sc.units_induction with
  | nil => rfl
  | cons a s ih =>
    cases h : (sc.next (a :: s)).1.isIncomplete with
    | true => rw [sc.finished_incomplete h, sc.pending_incomplete h, List.nil_append]
    | false =>
      have hle := sc.le a s
      have hnext := sc.stable a s t h
      calc sc.units (a :: s ++ t)
          = ((sc.next (a :: s ++ t)).1, (a :: s ++ t).take (sc.next (a :: s ++ t)).2) ::
              sc.units ((a :: s ++ t).drop (sc.next (a :: s ++ t)).2) := sc.units_cons a (s ++ t)
        _ = ((sc.next (a :: s)).1, (a :: s).take (sc.next (a :: s)).2) ::
              sc.units ((a :: s).drop (sc.next (a :: s)).2 ++ t) := by
            rw [hnext, List.take_append_of_le_length hle, List.drop_append_of_le_length hle]
        _ = sc.finished (a :: s) ++ sc.units (sc.pending (a :: s) ++ t) := by
            rw [ih, sc.finished_cons h, sc.pending_cons h, List.cons_append]

/-- An input that ends between units. -/
def Whole (s : List α) : Prop := ∀ u ∈ sc.units s, u.1.isIncomplete = false

variable {sc}

theorem Whole.finished_eq {s : List α} (h : sc.Whole s) : sc.finished s = sc.units s := by
  apply List.filter_eq_self.mpr
  intro u hu
  rw [h u hu, Bool.not_false]

theorem Whole.pending_eq {s : List α} (h : sc.Whole s) : sc.pending s = [] := by
  have hnone : (sc.units s).filter (fun u => u.1.isIncomplete) = [] := by
    apply List.filter_eq_nil_iff.mpr
    intro u hu hinc
    rw [h u hu] at hinc
    exact Bool.false_ne_true hinc
  unfold pending
  rw [hnone, List.flatMap_nil]

theorem Whole.units_append {s : List α} (h : sc.Whole s) (t : List α) :
    sc.units (s ++ t) = sc.units s ++ sc.units t := by
  rw [Scanner.units_append, h.finished_eq, h.pending_eq, List.nil_append]

theorem Whole.append {s t : List α} (hs : sc.Whole s) (ht : sc.Whole t) :
    sc.Whole (s ++ t) := by
  intro u hu
  rw [hs.units_append, List.mem_append] at hu
  rcases hu with hu | hu
  · exact hs u hu
  · exact ht u hu

variable (sc)

/-- A symbol that starts something closes a unit begun before it, whatever follows. -/
theorem units_append_starts (s : List α) {b : α} (hb : sc.starts b) (t : List α) :
    sc.units (s ++ b :: t) =
      (sc.units s).map (fun u => (u.1.closed, u.2)) ++ sc.units (b :: t) := by
  induction s using sc.units_induction with
  | nil => rfl
  | cons a s ih =>
    cases h : (sc.next (a :: s)).1.isIncomplete with
    | true =>
      have hnext := sc.cut a s b t h hb
      have hinc : (sc.next (a :: s)).1.closed = .Invalid := by
        cases hv : (sc.next (a :: s)).1 with
        | Ok value => rw [hv] at h; simp [Verdict.isIncomplete] at h
        | Invalid => rfl
        | Incomplete => rfl
      rw [List.cons_append, units_cons, ← List.cons_append, hnext, List.take_left, List.drop_left,
        sc.units_incomplete h]
      simp [hinc]
    | false =>
      have hle := sc.le a s
      have hnext := sc.stable a s (b :: t) h
      rw [List.cons_append, units_cons, ← List.cons_append, hnext,
        List.take_append_of_le_length hle, List.drop_append_of_le_length hle, ih, units_cons sc a s,
        List.map_cons, List.cons_append, Verdict.closed_eq_self h]

end Scanner

end Scan
