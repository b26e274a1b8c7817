import Mathlib.Algebra.Order.Ring.Nat
import Mathlib.Data.List.Basic

/-! # Readers of byte streams

    The general part of a binary format's reading side:

    * `Reader`: takes a value off the front of the input, or stops with an error;
    * `Reads r a bs`: in front of anything, `r` takes exactly the bytes `bs` and
      returns `a`;
    * `Stable r`: more input behind what `r` has read changes nothing;
    * `Reads.short`: a stable reader stops with an error on every strict prefix
      of what it reads;
    * `Returns r P` and `Took r P`: what the values `r` returns have in common, and what the
      bytes they were read from are;
    * `Word`: fixed-width values, little-endian.

    Nothing here names a component of the runtime. -/

namespace Wire

/-! ### Readers -/

abbrev Reader (ε : Type) (α : Type) := StateT (List UInt8) (Except ε) α

variable {ε ε' α β : Type} {r : Reader ε α} {a : α} {bs cs : List UInt8}

/-- The next `n` bytes. -/
def read (n : Nat) : Reader Unit (List UInt8) := fun s =>
  if n ≤ s.length then .ok (s.take n, s.drop n) else .error ()

def require (p : Prop) [Decidable p] : Reader Unit Unit := fun s =>
  if p then .ok ((), s) else .error ()

/-- `r`, with `e` as its only error. -/
def orFail (r : Reader ε' α) (e : ε) : Reader ε α := fun s =>
  match r s with
  | .ok x => .ok x
  | .error _ => .error e

/-- `n` values, one after the other. -/
@[grind =] def many (r : Reader ε α) : Nat → Reader ε (List α)
  | 0 => pure []
  | n + 1 => do
    let a ← r
    let as ← many r n
    pure (a :: as)

/-! ### What a reader takes -/

def Reads (r : Reader ε α) (a : α) (bs : List UInt8) : Prop :=
  ∀ rest, r (bs ++ rest) = .ok (a, rest)

theorem Reads.pure (a : α) : Reads (Pure.pure a : Reader ε α) a [] :=
  fun _ => rfl

theorem Reads.bind {k : α → Reader ε β} {b : β} (h : Reads r a bs) (hk : Reads (k a) b cs) :
    Reads (r >>= k) b (bs ++ cs) := by
  intro rest
  show (r (bs ++ cs ++ rest)).bind _ = _
  rw [List.append_assoc, h]
  exact hk rest

/-- A step that takes nothing. -/
theorem Reads.check {k : α → Reader ε β} {b : β} (h : Reads r a []) (hk : Reads (k a) b cs) :
    Reads (r >>= k) b cs :=
  h.bind hk

theorem Reads.map (h : Reads r a bs) (f : α → β) : Reads (f <$> r) (f a) bs := by
  intro rest
  show (r (bs ++ rest)).bind _ = _
  rw [h]
  rfl

theorem Reads.read (bs : List UInt8) {n : Nat} (h : bs.length = n) : Reads (read n) bs bs := by
  intro rest
  unfold Wire.read
  simp [← h]

theorem Reads.require {p : Prop} [Decidable p] (h : p) : Reads (require p) () [] := by
  intro rest
  unfold Wire.require
  rw [if_pos h]
  rfl

theorem Reads.checked {r : Reader Unit α} {p : α → Prop} [DecidablePred p] (h : Reads r a bs)
    (hp : p a) : Reads (r >>= fun x => Wire.require (p x)) () bs := by
  have hboth := h.bind (k := fun x => Wire.require (p x)) (.require hp)
  rwa [List.append_nil] at hboth

theorem Reads.orFail {r : Reader ε' α} (h : Reads r a bs) (e : ε) : Reads (orFail r e) a bs := by
  intro rest
  unfold Wire.orFail
  rw [h]

theorem Reads.many {encode : α → List UInt8} (as : List α)
    (h : ∀ a ∈ as, Reads r a (encode a)) : Reads (many r as.length) as (as.flatMap encode) := by
  induction as with
  | nil => exact .pure []
  | cons a as ih =>
    have hrest := ih fun b hb => h b (List.mem_cons_of_mem a hb)
    have hlast : Reads (Pure.pure (a :: as) : Reader ε (List α)) (a :: as) [] := .pure _
    have hboth := (h a List.mem_cons_self).bind
      (k := fun a => Wire.many r as.length >>= fun as => Pure.pure (a :: as)) (hrest.bind hlast)
    rwa [List.append_nil] at hboth

/-! ### More input -/

def Stable (r : Reader ε α) : Prop :=
  ∀ s a rest more, r s = .ok (a, rest) → r (s ++ more) = .ok (a, rest ++ more)

theorem Stable.pure (a : α) : Stable (Pure.pure a : Reader ε α) := by
  intro s b rest more h
  cases h
  rfl

theorem Stable.bind {k : α → Reader ε β} (h : Stable r) (hk : ∀ a, Stable (k a)) :
    Stable (r >>= k) := by
  intro s b rest more hs
  have hs' : (r s).bind (fun x => k x.1 x.2) = .ok (b, rest) := hs
  show (r (s ++ more)).bind (fun x => k x.1 x.2) = .ok (b, rest ++ more)
  cases hr : r s with
  | error e =>
    rw [hr] at hs'
    cases hs'
  | ok x =>
    obtain ⟨a, mid⟩ := x
    rw [hr] at hs'
    rw [h s a mid more hr]
    exact hk a mid b rest more hs'

theorem Stable.map (h : Stable r) (f : α → β) : Stable (f <$> r) :=
  h.bind fun a => .pure (f a)

theorem Stable.read (n : Nat) : Stable (read n) := by
  intro s a rest more h
  unfold Wire.read at h ⊢
  split at h
  next hn =>
    cases h
    rw [if_pos (by rw [List.length_append]; omega), List.take_append_of_le_length hn,
      List.drop_append_of_le_length hn]
  · cases h

theorem Stable.require (p : Prop) [Decidable p] : Stable (require p) := by
  intro s a rest more h
  unfold Wire.require at h ⊢
  split at h
  next hp =>
    cases h
    rw [if_pos hp]
  · cases h

theorem Stable.orFail {r : Reader ε' α} (h : Stable r) (e : ε) : Stable (orFail r e) := by
  intro s a rest more hs
  unfold Wire.orFail at hs ⊢
  cases hr : r s with
  | error e' =>
    rw [hr] at hs
    cases hs
  | ok x =>
    rw [hr] at hs
    cases hs
    rw [h s a rest more hr]

theorem Stable.many (h : Stable r) (n : Nat) : Stable (many r n) := by
  induction n with
  | zero => exact .pure []
  | succ n ih => exact h.bind fun a => ih.bind fun as => .pure _

/-- What is cut off is missed. -/
theorem Reads.short (h : Reads r a bs) (hstable : Stable r) (hpre : cs <+: bs) (hne : cs ≠ bs) :
    ∃ e, r cs = .error e := by
  cases hr : r cs with
  | error e => exact ⟨e, rfl⟩
  | ok x =>
    obtain ⟨b, rest⟩ := x
    obtain ⟨more, rfl⟩ := hpre
    have hlong := hstable cs b rest more hr
    have hall := h []
    rw [List.append_nil, hlong] at hall
    have hnil : rest ++ more = [] := congrArg Prod.snd (Except.ok.inj hall)
    rw [(List.append_eq_nil_iff.mp hnil).2, List.append_nil] at hne
    exact absurd rfl hne

/-! ### What a reader returns -/

/-- Whatever `r` reads, the value meets `P`. -/
def Returns (r : Reader ε α) (P : α → Prop) : Prop :=
  ∀ s a rest, r s = .ok (a, rest) → P a

section Returned

variable {P : α → Prop} {Q : β → Prop}

theorem Returns.pure (h : P a) : Returns (Pure.pure a : Reader ε α) P := by
  intro s b rest hb
  cases hb
  exact h

theorem Returns.bind {k : α → Reader ε β} (h : Returns r P) (hk : ∀ a, P a → Returns (k a) Q) :
    Returns (r >>= k) Q := by
  intro s b rest hs
  have hs' : (r s).bind (fun x => k x.1 x.2) = .ok (b, rest) := hs
  cases hr : r s with
  | error e =>
    rw [hr] at hs'
    cases hs'
  | ok x =>
    obtain ⟨a, mid⟩ := x
    rw [hr] at hs'
    exact hk a (h s a mid hr) mid b rest hs'

/-- A step whose value does not matter. -/
theorem Returns.skip {k : α → Reader ε β} (hk : ∀ a, Returns (k a) Q) : Returns (r >>= k) Q :=
  Returns.bind (P := fun _ => True) (fun _ _ _ _ => trivial) fun a _ => hk a

theorem Returns.map {f : α → β} (h : Returns r fun a => Q (f a)) : Returns (f <$> r) Q :=
  h.bind fun _ ha => .pure ha

theorem Returns.conseq {P' : α → Prop} (h : Returns r P) (hP : ∀ a, P a → P' a) : Returns r P' :=
  fun s a rest hs => hP a (h s a rest hs)

theorem Returns.read (n : Nat) : Returns (read n) fun bs => bs.length = n := by
  intro s a rest h
  unfold Wire.read at h
  split at h
  next hn =>
    cases h
    rw [List.length_take, Nat.min_eq_left hn]
  · cases h

theorem Returns.require (p : Prop) [Decidable p] : Returns (require p) fun _ => p := by
  intro s a rest h
  unfold Wire.require at h
  split at h
  next hp => exact hp
  · cases h

theorem Returns.orFail {r : Reader ε' α} (h : Returns r P) (e : ε) : Returns (orFail r e) P := by
  intro s a rest hs
  unfold Wire.orFail at hs
  cases hr : r s with
  | error e' =>
    rw [hr] at hs
    cases hs
  | ok x =>
    rw [hr] at hs
    cases hs
    exact h s a rest hr

theorem Returns.many (h : Returns r P) (n : Nat) :
    Returns (many r n) fun as => as.length = n ∧ ∀ a ∈ as, P a := by
  induction n with
  | zero => exact .pure ⟨rfl, nofun⟩
  | succ n ih =>
    refine h.bind fun a ha => ih.bind fun as has => .pure ⟨?_, ?_⟩
    · rw [List.length_cons, has.1]
    · intro b hb
      rcases List.mem_cons.mp hb with rfl | hrest
      · exact ha
      · exact has.2 b hrest

end Returned

/-! ### What a reader took -/

/-- The bytes `r` takes off the input are `P` of the value it returns. -/
def Took (r : Reader ε α) (P : α → List UInt8 → Prop) : Prop :=
  ∀ s a rest, r s = .ok (a, rest) → ∃ bs, s = bs ++ rest ∧ P a bs

section Taken

variable {P : α → List UInt8 → Prop} {Q : β → List UInt8 → Prop}

theorem Took.pure (h : P a []) : Took (Pure.pure a : Reader ε α) P := by
  intro s b rest hb
  cases hb
  exact ⟨[], rfl, h⟩

theorem Took.bind {k : α → Reader ε β} (h : Took r P)
    (hk : ∀ a bs, P a bs → Took (k a) fun b cs => Q b (bs ++ cs)) : Took (r >>= k) Q := by
  intro s b rest hs
  have hs' : (r s).bind (fun x => k x.1 x.2) = .ok (b, rest) := hs
  cases hr : r s with
  | error e =>
    rw [hr] at hs'
    cases hs'
  | ok x =>
    obtain ⟨a, mid⟩ := x
    rw [hr] at hs'
    obtain ⟨bs, rfl, ha⟩ := h s a mid hr
    obtain ⟨cs, rfl, hb⟩ := hk a bs ha mid b rest hs'
    exact ⟨bs ++ cs, (List.append_assoc bs cs rest).symm, hb⟩

theorem Took.map {f : α → β} (h : Took r fun a bs => Q (f a) bs) : Took (f <$> r) Q :=
  h.bind fun a bs ha => .pure (by rw [List.append_nil]; exact ha)

theorem Took.conseq {P' : α → List UInt8 → Prop} (h : Took r P) (hP : ∀ a bs, P a bs → P' a bs) :
    Took r P' := by
  intro s a rest hs
  obtain ⟨bs, hbs, ha⟩ := h s a rest hs
  exact ⟨bs, hbs, hP a bs ha⟩

theorem Took.read (n : Nat) : Took (read n) fun a bs => bs = a ∧ a.length = n := by
  intro s a rest h
  unfold Wire.read at h
  split at h
  next hn =>
    cases h
    exact ⟨s.take n, (List.take_append_drop n s).symm, rfl, by
      rw [List.length_take, Nat.min_eq_left hn]⟩
  · cases h

end Taken

/-! ### Words -/

/-- The low `n` bytes of a number, the lowest first. -/
@[grind =] def le : Nat → Nat → List UInt8
  | 0, _ => []
  | n + 1, v => UInt8.ofNat v :: le n (v / 256)

@[grind =] def of_le : List UInt8 → Nat
  | [] => 0
  | b :: bs => b.toNat + 256 * of_le bs

@[simp]
theorem length_le (n v : Nat) : (le n v).length = n := by
  induction n generalizing v with
  | zero => rfl
  | succ n ih => simp [le, ih]

theorem of_le_le (n v : Nat) : of_le (le n v) = v % 256 ^ n := by
  induction n generalizing v with
  | zero => simp [le, of_le, Nat.mod_one]
  | succ n ih =>
    have hlow : (UInt8.ofNat v).toNat = v % 256 := UInt8.toNat_ofNat'
    have hpow : 256 ^ (n + 1) = 256 * 256 ^ n := Nat.pow_succ'
    rw [le, of_le, ih, hlow, hpow, Nat.mod_mul]

theorem of_le_lt (bs : List UInt8) : of_le bs < 256 ^ bs.length := by
  induction bs with
  | nil => exact Nat.one_pos
  | cons b bs ih =>
    have hb : b.toNat < 256 := b.toNat_lt
    have hpow : 256 ^ (bs.length + 1) = 256 * 256 ^ bs.length := Nat.pow_succ'
    rw [of_le, List.length_cons, hpow]
    omega

theorem le_of_le (bs : List UInt8) : le bs.length (of_le bs) = bs := by
  induction bs with
  | nil => rfl
  | cons b bs ih =>
    have hb : b.toNat < 256 := b.toNat_lt
    have hlow : UInt8.ofNat (b.toNat + 256 * of_le bs) = b := by
      apply UInt8.toNat_inj.mp
      rw [UInt8.toNat_ofNat']
      omega
    have hhigh : (b.toNat + 256 * of_le bs) / 256 = of_le bs := by omega
    rw [List.length_cons, of_le, le, hlow, hhigh, ih]

/-- A value of fixed width. `valid` are the values it can hold. -/
structure Word (α : Type) where
  width : Nat
  width_pos : 0 < width
  valid : α → Prop
  encode : α → List UInt8
  decode : List UInt8 → α
  length_encode : ∀ a, (encode a).length = width
  decode_encode : ∀ a, valid a → decode (encode a) = a

namespace Word

/-- Unsigned numbers of `n` bytes. -/
def nat (n : Nat) (hn : 0 < n) : Word Nat where
  width := n
  width_pos := hn
  valid := fun v => v < 256 ^ n
  encode := le n
  decode := of_le
  length_encode := length_le n
  decode_encode := fun v hv => by rw [of_le_le, Nat.mod_eq_of_lt hv]

def u8 : Word UInt8 where
  width := 1
  width_pos := by decide
  valid := fun _ => True
  encode := fun v => le 1 v.toNat
  decode := fun bs => UInt8.ofNat (of_le bs)
  length_encode := fun v => length_le 1 v.toNat
  decode_encode := fun v _ => by
    have hlt : v.toNat < 256 ^ 1 := v.toNat_lt
    rw [of_le_le, Nat.mod_eq_of_lt hlt, UInt8.ofNat_toNat]

def u16 : Word UInt16 where
  width := 2
  width_pos := by decide
  valid := fun _ => True
  encode := fun v => le 2 v.toNat
  decode := fun bs => UInt16.ofNat (of_le bs)
  length_encode := fun v => length_le 2 v.toNat
  decode_encode := fun v _ => by
    have hlt : v.toNat < 256 ^ 2 := v.toNat_lt
    rw [of_le_le, Nat.mod_eq_of_lt hlt, UInt16.ofNat_toNat]

def u32 : Word UInt32 where
  width := 4
  width_pos := by decide
  valid := fun _ => True
  encode := fun v => le 4 v.toNat
  decode := fun bs => UInt32.ofNat (of_le bs)
  length_encode := fun v => length_le 4 v.toNat
  decode_encode := fun v _ => by
    have hlt : v.toNat < 256 ^ 4 := v.toNat_lt
    rw [of_le_le, Nat.mod_eq_of_lt hlt, UInt32.ofNat_toNat]

def u64 : Word UInt64 where
  width := 8
  width_pos := by decide
  valid := fun _ => True
  encode := fun v => le 8 v.toNat
  decode := fun bs => UInt64.ofNat (of_le bs)
  length_encode := fun v => length_le 8 v.toNat
  decode_encode := fun v _ => by
    have hlt : v.toNat < 256 ^ 8 := v.toNat_lt
    rw [of_le_le, Nat.mod_eq_of_lt hlt, UInt64.ofNat_toNat]

variable (w : Word α)

/-- The bytes of an array. -/
def array (as : List α) : List UInt8 := as.flatMap w.encode

/-- The first `n` values of an array's bytes. -/
def values : Nat → List UInt8 → List α
  | 0, _ => []
  | n + 1, bs => w.decode (bs.take w.width) :: values n (bs.drop w.width)

theorem length_array (as : List α) : (w.array as).length = as.length * w.width := by
  induction as with
  | nil => simp [array]
  | cons a as ih =>
    have hcons : w.array (a :: as) = w.encode a ++ w.array as := List.flatMap_cons
    rw [hcons, List.length_append, ih, w.length_encode, List.length_cons, Nat.succ_mul]
    omega

theorem length_values (n : Nat) (bs : List UInt8) : (w.values n bs).length = n := by
  induction n generalizing bs with
  | zero => rfl
  | succ n ih => rw [values, List.length_cons, ih]

/-- Where every word of bytes is a value, so is what an array holds. -/
theorem valid_values (h : ∀ bs, bs.length ≤ w.width → w.valid (w.decode bs)) (n : Nat)
    (bs : List UInt8) : ∀ a ∈ w.values n bs, w.valid a := by
  induction n generalizing bs with
  | zero => nofun
  | succ n ih =>
    intro a ha
    rcases List.mem_cons.mp ha with rfl | hrest
    · exact h _ (List.length_take_le _ _)
    · exact ih _ a hrest

theorem values_array {as : List α} (h : ∀ a ∈ as, w.valid a) :
    w.values as.length (w.array as) = as := by
  induction as with
  | nil => rfl
  | cons a as ih =>
    have hcons : w.array (a :: as) = w.encode a ++ w.array as := List.flatMap_cons
    have hlen := w.length_encode a
    have hle : w.width ≤ (w.encode a).length := Nat.le_of_eq hlen.symm
    rw [hcons, List.length_cons, values, List.take_append_of_le_length hle,
      List.drop_append_of_le_length hle, ← hlen, List.take_length, List.drop_length,
      List.nil_append, w.decode_encode a (h a List.mem_cons_self),
      ih fun b hb => h b (List.mem_cons_of_mem a hb)]

/-- Each word of bytes is what its value is written as. -/
def Exact : Prop := ∀ bs, bs.length = w.width → w.encode (w.decode bs) = bs

theorem nat_exact (n : Nat) (hn : 0 < n) : (nat n hn).Exact := by
  intro bs hbs
  show le n (of_le bs) = bs
  rw [← show bs.length = n from hbs, le_of_le]

theorem array_values (h : w.Exact) {n : Nat} {bs : List UInt8} (hlen : bs.length = n * w.width) :
    w.array (w.values n bs) = bs := by
  induction n generalizing bs with
  | zero =>
    rw [Nat.zero_mul] at hlen
    rw [List.eq_nil_of_length_eq_zero hlen]
    rfl
  | succ n ih =>
    rw [Nat.succ_mul] at hlen
    have hhead : (bs.take w.width).length = w.width := by
      rw [List.length_take]
      omega
    have hrest : (bs.drop w.width).length = n * w.width := by
      rw [List.length_drop]
      omega
    have hcons : w.array (w.values (n + 1) bs) =
        w.encode (w.decode (bs.take w.width)) ++ w.array (w.values n (bs.drop w.width)) :=
      List.flatMap_cons
    rw [hcons, h _ hhead, ih hrest, List.take_append_drop]

end Word

end Wire
