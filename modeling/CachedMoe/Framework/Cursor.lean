import CachedMoe.Framework.Reader
import Mathlib

/-! # Codecs over one buffer

    The reading and the writing side of a binary format that keeps a validity flag and goes on
    after a failure:

    * `Cursor`: a buffer in memory, the place read so far and the flag; an `Act` stops, with
      `none`, at an access outside the buffer;
    * `Safe x`: whatever the buffer holds, `x` stays inside it;
    * `Takes x a bs`: where the buffer goes on with `bs`, a valid cursor reads `a` from it;
    * `Sink`: the bytes written so far and the flag; `Puts f P bs`: a valid sink gets `bs` and
      stays valid exactly when `P`.

    Sizes are 64-bit, and so are the products and the differences of sizes. -/

namespace Wire

theorem size_width_pos : 0 < 8 := by
  decide

/-- `uint64_t`. -/
def size_word : Word Nat := .nat 8 size_width_pos

/-! ### Reading -/

structure Cursor where
  data : List UInt8
  pos : Nat := 0
  valid : Bool := true
  deriving Repr, DecidableEq

abbrev Act := StateT Cursor Option

variable {α β : Type}

namespace Cursor

/-- `data.size() - at`. -/
def rest (c : Cursor) : Nat := (2 ^ 64 + c.data.length - c.pos) % 2 ^ 64

/-- `valid = false`. -/
def invalidate : Act Unit := modify fun c => { c with valid := false }

def is_valid : Act Bool := do
  return (← get).valid

def left : Act Nat := do
  return (← get).rest

/-- Copies `n` bytes out of the buffer. -/
def memcpy (n : Nat) : Act (List UInt8) := fun c =>
  if c.pos + n ≤ c.data.length then
    some ((c.data.drop c.pos).take n, { c with pos := c.pos + n })
  else none

/-- A fixed-width value; where the buffer is too short the old one stays. -/
def scalar (w : Word α) (old : α) : Act α := do
  if w.width > (← left) then
    invalidate
    return old
  else return w.decode (← memcpy w.width)

/-- A number of elements and the elements, no more than `limit` bytes of them. -/
def vec (limit : Nat) (w : Word α) : Act (List α) := do
  let n ← scalar size_word 0
  if !(← is_valid) || n > limit / w.width then
    invalidate
    return []
  else if n * w.width % 2 ^ 64 > (← left) then
    invalidate
    return []
  else return w.values n (← memcpy (n * w.width % 2 ^ 64))

/-- `n` values one after the other. -/
@[grind =]
def repeated (x : Act α) : Nat → Act (List α)
  | 0 => pure []
  | n + 1 => do
    let a ← x
    let as ← repeated x n
    return a :: as

/-- Inside a buffer whose size is a 64-bit number. -/
structure Inside (c : Cursor) : Prop where
  le : c.pos ≤ c.data.length
  size : c.data.length < 2 ^ 64

theorem Inside.rest_eq {c : Cursor} (h : c.Inside) : c.rest = c.data.length - c.pos := by
  have hle := h.le
  have hsize := h.size
  unfold rest
  rw [show 2 ^ 64 + c.data.length - c.pos = (c.data.length - c.pos) + 2 ^ 64 by omega,
    Nat.add_mod_right, Nat.mod_eq_of_lt (by omega)]

end Cursor

open Cursor

/-! ### Staying inside -/

/-- `x` reads nothing outside the buffer and leaves the cursor inside it. -/
def Safe (x : Act α) : Prop :=
  ∀ c : Cursor, c.Inside → ∃ a c', x c = some (a, c') ∧ c'.Inside ∧ c'.data = c.data

theorem Safe.pure (a : α) : Safe (Pure.pure a : Act α) := fun c hc => ⟨a, c, rfl, hc, rfl⟩

theorem Safe.bind {x : Act α} {k : α → Act β} (h : Safe x) (hk : ∀ a, Safe (k a)) :
    Safe (x >>= k) := by
  intro c hc
  obtain ⟨a, c₁, hx, hc₁, hdata₁⟩ := h c hc
  obtain ⟨b, c₂, hy, hc₂, hdata₂⟩ := hk a c₁ hc₁
  refine ⟨b, c₂, ?_, hc₂, hdata₂.trans hdata₁⟩
  show (x c).bind (fun p => k p.1 p.2) = _
  rw [hx]
  exact hy

theorem Safe.invalidate : Safe invalidate := fun _ hc => ⟨(), _, rfl, ⟨hc.le, hc.size⟩, rfl⟩

theorem Safe.is_valid : Safe is_valid := fun c hc => ⟨c.valid, c, rfl, hc, rfl⟩

theorem Safe.ite {p : Prop} [Decidable p] {x y : Act α} (hx : Safe x) (hy : Safe y) :
    Safe (if p then x else y) := by
  split
  · exact hx
  · exact hy

theorem memcpy_inside {c : Cursor} {n : Nat} (hc : c.Inside) (hn : n ≤ c.rest) :
    ∃ bs c', memcpy n c = some (bs, c') ∧ c'.Inside ∧ c'.data = c.data := by
  rw [hc.rest_eq] at hn
  have hle := hc.le
  have hin : c.pos + n ≤ c.data.length := by omega
  exact ⟨_, _, if_pos hin, ⟨hin, hc.size⟩, rfl⟩

theorem Safe.guarded {n : Nat} {x : Act α} {f : List UInt8 → α} (hx : Safe x) :
    Safe (do if n > (← left) then x else return f (← memcpy n)) := by
  intro c hc
  show ∃ a c', (if n > c.rest then x else do return f (← memcpy n)) c = some (a, c') ∧ _
  by_cases hn : n > c.rest
  · rw [if_pos hn]
    exact hx c hc
  · rw [if_neg hn]
    obtain ⟨bs, c', hcopy, hc', hdata⟩ := memcpy_inside hc (Nat.le_of_not_lt hn)
    refine ⟨f bs, c', ?_, hc', hdata⟩
    show (memcpy n c).bind _ = _
    rw [hcopy]
    rfl

theorem Safe.scalar (w : Word α) (old : α) : Safe (scalar w old) :=
  Safe.guarded (Safe.invalidate.bind fun _ => Safe.pure old)

theorem Safe.vec (limit : Nat) (w : Word α) : Safe (vec limit w) := by
  refine (Safe.scalar _ 0).bind fun n => Safe.is_valid.bind fun ok => ?_
  have hbad : Safe (Cursor.invalidate >>= fun _ => (Pure.pure [] : Act (List α))) :=
    Safe.invalidate.bind fun _ => Safe.pure []
  exact Safe.ite hbad (Safe.guarded hbad)

theorem Safe.repeated {x : Act α} (h : Safe x) (n : Nat) : Safe (repeated x n) := by
  induction n with
  | zero => exact Safe.pure []
  | succ n ih => exact h.bind fun a => ih.bind fun as => Safe.pure (a :: as)

/-! ### Reading what was written -/

/-- A valid cursor in front of `bs` reads `a` from it. -/
def Takes (x : Act α) (a : α) (bs : List UInt8) : Prop :=
  ∀ pre post : List UInt8, (pre ++ bs ++ post).length < 2 ^ 64 →
    x { data := pre ++ bs ++ post, pos := pre.length, valid := true } =
      some (a, { data := pre ++ bs ++ post, pos := (pre ++ bs).length, valid := true })

section Taken

variable {x : Act α} {a : α} {bs cs : List UInt8}

theorem Takes.pure (a : α) : Takes (Pure.pure a : Act α) a [] := by
  intro pre post _
  show some _ = some _
  rw [List.append_nil]

theorem Takes.bind {k : α → Act β} {b : β} (h : Takes x a bs) (hk : Takes (k a) b cs) :
    Takes (x >>= k) b (bs ++ cs) := by
  intro pre post hsize
  have hx := h pre (cs ++ post)
  have hy := hk (pre ++ bs) post
  simp only [List.append_assoc] at hx hy hsize ⊢
  show (x _).bind (fun p => k p.1 p.2) = _
  rw [hx hsize]
  exact hy hsize

theorem Takes.last {k : α → Act β} {b : β} (h : Takes x a bs) (hk : Takes (k a) b []) :
    Takes (x >>= k) b bs := by
  have hboth := h.bind hk
  rwa [List.append_nil] at hboth

/-- A valid cursor says so. -/
theorem Takes.is_valid {k : Bool → Act β} {b : β} (hk : Takes (k true) b bs) :
    Takes (is_valid >>= k) b bs := fun pre post hsize => hk pre post hsize

theorem Takes.guarded {x : Act α} {f : List UInt8 → α} {n : Nat} (hn : bs.length = n) :
    Takes (do if n > (← left) then x else return f (← memcpy n)) (f bs) bs := by
  intro pre post hsize
  have hrest : Cursor.rest { data := pre ++ bs ++ post, pos := pre.length, valid := true } =
      bs.length + post.length := by
    have hin : Cursor.Inside { data := pre ++ bs ++ post, pos := pre.length, valid := true } := by
      refine ⟨?_, hsize⟩
      simp only [List.length_append]
      omega
    rw [hin.rest_eq]
    simp only [List.length_append]
    omega
  show (if n > Cursor.rest _ then x else do return f (← memcpy n)) _ = _
  rw [hrest, if_neg (by omega)]
  have hcopy : memcpy n { data := pre ++ bs ++ post, pos := pre.length, valid := true } =
      some (bs, { data := pre ++ bs ++ post, pos := (pre ++ bs).length, valid := true }) := by
    unfold memcpy
    dsimp only
    rw [if_pos (by simp only [List.length_append]; omega), List.append_assoc,
      List.drop_left, ← hn, List.take_left, List.length_append]
  show (memcpy n _).bind _ = _
  rw [hcopy]
  rfl

theorem Takes.scalar (w : Word α) (old : α) (h : w.valid a) :
    Takes (scalar w old) a (w.encode a) := by
  have htake := @Takes.guarded α (w.encode a) (Cursor.invalidate >>= fun _ => Pure.pure old)
    w.decode w.width (w.length_encode a)
  rw [w.decode_encode a h] at htake
  exact htake

/-- The bytes of a vector. -/
def vec_bytes (w : Word α) (as : List α) : List UInt8 := le 8 as.length ++ w.array as

theorem Takes.vec {limit : Nat} {w : Word α} {as : List α} (hvalid : ∀ a ∈ as, w.valid a)
    (hlen : as.length ≤ limit / w.width) (hlimit : limit < 2 ^ 64) :
    Takes (vec limit w) as (vec_bytes w as) := by
  have hprod : as.length * w.width ≤ limit := by
    have hmul := Nat.mul_le_mul_right w.width hlen
    exact Nat.le_trans hmul (Nat.div_mul_le_self limit w.width)
  have hcount : as.length < 256 ^ 8 := by
    have hle : as.length ≤ limit := Nat.le_trans hlen (Nat.div_le_self limit w.width)
    exact Nat.lt_of_le_of_lt hle hlimit
  have hmod : as.length * w.width % 2 ^ 64 = as.length * w.width :=
    Nat.mod_eq_of_lt (by omega)
  refine (Takes.scalar size_word 0 hcount).bind ?_
  apply Takes.is_valid
  have hgo : ¬ ((!true || decide (as.length > limit / w.width)) = true) := by
    simp only [Bool.not_true, Bool.false_or, decide_eq_true_eq]
    omega
  rw [if_neg hgo]
  have htake := @Takes.guarded (List α) (w.array as)
    (Cursor.invalidate >>= fun _ => Pure.pure []) (w.values as.length)
    (as.length * w.width % 2 ^ 64) (by rw [hmod, w.length_array])
  rw [w.values_array hvalid] at htake
  exact htake

theorem Takes.repeated {x : Act α} {encode : α → List UInt8} {as : List α}
    (h : ∀ a ∈ as, Takes x a (encode a)) : Takes (repeated x as.length) as (as.flatMap encode) := by
  induction as with
  | nil => exact .pure []
  | cons a as ih =>
    have hrest := ih fun b hb => h b (List.mem_cons_of_mem a hb)
    exact (h a List.mem_cons_self).bind (hrest.last (.pure (a :: as)))

end Taken

/-! ### Writing -/

structure Sink where
  data : List UInt8 := []
  valid : Bool := true
  deriving Repr, DecidableEq

namespace Sink

def scalar (w : Word α) (a : α) (s : Sink) : Sink := { s with data := s.data ++ w.encode a }

def vec (limit : Nat) (w : Word α) (as : List α) (s : Sink) : Sink :=
  let s := s.scalar size_word as.length
  if !s.valid || as.length > limit / w.width then { s with valid := false }
  else { s with data := s.data ++ w.array as }

end Sink

/-- A valid sink gets `bs` and stays valid where `P` holds, and is invalid from there on where it
    does not. -/
structure Puts (f : Sink → Sink) (P : Prop) (bs : List UInt8) : Prop where
  ok : ∀ s : Sink, s.valid = true → P → f s = { data := s.data ++ bs, valid := true }
  bad : ∀ s : Sink, (f s).valid = true → s.valid = true ∧ P

namespace Puts

variable {f g : Sink → Sink} {P Q : Prop} {bs cs : List UInt8}

theorem comp (hf : Puts f P bs) (hg : Puts g Q cs) :
    Puts (fun s => g (f s)) (P ∧ Q) (bs ++ cs) where
  ok := by
    intro s hs h
    rw [hf.ok s hs h.1, hg.ok _ rfl h.2, List.append_assoc]
  bad := by
    intro s hs
    obtain ⟨hmid, hQ⟩ := hg.bad _ hs
    obtain ⟨hfirst, hP⟩ := hf.bad _ hmid
    exact ⟨hfirst, hP, hQ⟩

theorem congr (h : Puts f P bs) (hPQ : P ↔ Q) : Puts f Q bs where
  ok := fun s hs hQ => h.ok s hs (hPQ.mpr hQ)
  bad := fun s hs => (h.bad s hs).imp_right hPQ.mp

theorem id : Puts (fun s => s) True [] where
  ok := by
    intro s hs _
    rw [List.append_nil, ← hs]
  bad := fun _ hs => ⟨hs, trivial⟩

theorem scalar (w : Word α) (a : α) : Puts (Sink.scalar w a) True (w.encode a) where
  ok := by
    intro s hs _
    rw [← hs]
    rfl
  bad := fun _ hs => ⟨hs, trivial⟩

theorem vec (limit : Nat) (w : Word α) (as : List α) :
    Puts (Sink.vec limit w as) (as.length ≤ limit / w.width) (vec_bytes w as) where
  ok := by
    intro s hs hlen
    unfold Sink.vec
    have hgo : ¬ ((!(s.scalar size_word as.length).valid ||
        decide (as.length > limit / w.width)) = true) := by
      rw [show (s.scalar size_word as.length).valid = s.valid from rfl, hs]
      simp only [Bool.not_true, Bool.false_or, decide_eq_true_eq]
      omega
    rw [if_neg hgo]
    unfold Sink.scalar vec_bytes
    dsimp only
    rw [List.append_assoc, hs]
    rfl
  bad := by
    intro s hs
    unfold Sink.vec at hs
    dsimp only at hs
    split at hs
    · cases hs
    next hgo =>
      simp only [Bool.or_eq_true, Bool.not_eq_true', decide_eq_true_eq, not_or,
        Bool.not_eq_false] at hgo
      exact ⟨hgo.1, Nat.le_of_not_lt hgo.2⟩

/-- One value after the other. -/
theorem foldl {put : α → Sink → Sink} {P : α → Prop} {encode : α → List UInt8} {as : List α}
    (h : ∀ a ∈ as, Puts (put a) (P a) (encode a)) :
    Puts (fun s => as.foldl (fun s a => put a s) s) (∀ a ∈ as, P a) (as.flatMap encode) := by
  induction as with
  | nil => exact Puts.id.congr (by simp)
  | cons a as ih =>
    have hrest := ih fun b hb => h b (List.mem_cons_of_mem a hb)
    exact ((h a List.mem_cons_self).comp hrest).congr List.forall_mem_cons.symm

end Puts

end Wire
