import CachedMoe.Framework.System
import Mathlib.Data.Set.Insert
import Mathlib.Logic.Function.Basic
import Mathlib.Tactic.Tauto

/-! # Asynchronous transfers into shared buffers

    A program reads items into buffers while it works on other items. A read goes out and is
    waited for later; its bytes arrive in any order in between, next to those of every other
    read that is out. Some buffers belong to somebody else, who hands them out one at a time.

    * `Event`: what the program does, in order;
    * `machine`: the events next to the reads that are out, byte by byte;
    * `Cell`: what the events so far say about one buffer, and `wp`, which events may follow;
    * `complete_at_use`, `alone_at_start`: a program that every buffer's cell accepts uses
      whole items only, and never reads over one that is still needed.

    Nothing here names a component of the runtime. -/

namespace Transfer

open LTS

universe u

/-! ### Programs -/

/-- What a program does with item `i`, its part `p` and the buffer `b`. -/
inductive Event (ι π β : Type u) where
  /-- A read of the part into the buffer goes out. -/
  | start (i : ι) (p : π) (b : β)
  /-- The program waits until that read is complete. -/
  | await (i : ι) (p : π) (b : β)
  /-- The item moves from `b` to `b'`; the program goes on when it is there. -/
  | copy (i : ι) (b b' : β)
  /-- The buffer's address stands for the item. -/
  | use (i : ι) (b : β)
  /-- Nothing needs the item any more. -/
  | done (i : ι)
  /-- The buffer is handed to the program, for an item to be read into or one it holds. -/
  | take (i : ι) (b : β) (full : Bool)
  | give (i : ι) (b : β)

/-- The items: the parts they are read in, the places of a buffer each part covers, the bytes
    that belong there, and whether anything will use the item. -/
structure Items (ι π ν V : Type u) where
  parts : ι → Set π
  span : ι → π → Set ν
  bytes : ι → ν → V
  needed : ι → Prop

variable {ι π β ν V : Type u}

/-! ### Execution -/

structure State (ι π β ν V : Type u) where
  /-- What the program has done, and what it has still to do. -/
  past : List (Event ι π β)
  todo : List (Event ι π β)
  /-- The reads that are out. -/
  flight : Set (ι × π × β)
  mem : β → ν → V
  mine : β → Bool

inductive Action (ι π β ν V : Type u) where
  /-- The program goes on. -/
  | host
  /-- One byte of a read arrives. -/
  | arrive (i : ι) (p : π) (b : β) (n : ν)
  /-- The rest of a read arrives. -/
  | finish (i : ι) (p : π) (b : β)
  /-- Somebody else writes to a buffer of theirs. -/
  | other (b : β) (n : ν) (v : V)

variable (items : Items ι π ν V)

/-- The buffer holds the whole item. -/
def Items.Stored (i : ι) (row : ν → V) : Prop :=
  ∀ p ∈ items.parts i, ∀ n ∈ items.span i p, row n = items.bytes i n

/-- What the program's next event has to wait for: a read, or a buffer's owner. -/
def State.permits (s : State ι π β ν V) : Event ι π β → Prop
  | .await i p b => (i, p, b) ∉ s.flight
  | .take i b full => s.mine b = false ∧ (full = true → items.Stored i (s.mem b))
  | _ => True

def State.perform [DecidableEq β] (s : State ι π β ν V) (e : Event ι π β)
    (rest : List (Event ι π β)) : State ι π β ν V :=
  let s := { s with past := s.past ++ [e], todo := rest }
  match e with
  | .start i p b => { s with flight := insert (i, p, b) s.flight }
  | .copy _ b b' => { s with mem := Function.update s.mem b' (s.mem b) }
  | .take _ b _ => { s with mine := Function.update s.mine b true }
  | .give _ b => { s with mine := Function.update s.mine b false }
  | .await _ _ _ => s
  | .use _ _ => s
  | .done _ => s

open Classical in
/-- The program `trace` next to the reads it sends out; `mine` are its own buffers. -/
noncomputable def machine [DecidableEq β] [DecidableEq ν] (mine : β → Bool)
    (trace : List (Event ι π β)) : System (State ι π β ν V) (Action ι π β ν V) where
  init := fun s => s.past = [] ∧ s.todo = trace ∧ s.flight = ∅ ∧ s.mine = mine
  step := fun s a s' =>
    match a with
    | .host => ∃ e rest, s.todo = e :: rest ∧ s.permits items e ∧ s' = s.perform e rest
    | .arrive i p b n => (i, p, b) ∈ s.flight ∧ n ∈ items.span i p ∧ s' =
        { s with mem := Function.update s.mem b (Function.update (s.mem b) n (items.bytes i n)) }
    | .finish i p b => (i, p, b) ∈ s.flight ∧ s' =
        { s with
          flight := s.flight \ {(i, p, b)}
          mem := Function.update s.mem b fun n =>
            if n ∈ items.span i p then items.bytes i n else s.mem b n }
    | .other b n v => s.mine b = false ∧
        s' = { s with mem := Function.update s.mem b (Function.update (s.mem b) n v) }

/-! ### One buffer -/

/-- A buffer, as the program's events have left it: the parts on their way and the parts that
    were waited for, the items ever read into it, and the items nothing needs any more. -/
structure Cell (ι π : Type u) where
  mine : Bool
  flight : Set (ι × π) := ∅
  landed : Set (ι × π) := ∅
  started : Set ι := ∅
  done : Set ι := ∅

namespace Cell

variable [DecidableEq β] (c : Cell ι π)

def Whole (i : ι) : Prop := ∀ p ∈ items.parts i, (i, p) ∈ c.landed

/-- No item but `i` that was read into the buffer is still needed. -/
def Settled (i : ι) : Prop := ∀ j ∈ c.started, j ≠ i → items.needed j → j ∈ c.done

def Allows (b : β) : Event ι π β → Prop
  | .start i p b' => b' = b →
      c.mine = true ∧ (∀ x ∈ c.flight, x.1 = i ∧ x.2 ≠ p) ∧ c.Settled items i
  | .await i p b' => b' = b → (i, p) ∈ c.flight
  | .copy i b₁ b₂ => (b₁ = b → c.mine = true ∧ c.Whole items i) ∧
      (b₂ = b → c.mine = true ∧ c.flight = ∅)
  | .use i b' => b' = b → c.mine = true ∧ c.Whole items i
  | .done _ => True
  | .take _ _ _ => True
  | .give _ b' => b' = b → c.flight = ∅

/-- A buffer is only handed out when nobody has it. -/
def Enabled (b : β) : Event ι π β → Prop
  | .take _ b' _ => b' = b → c.mine = false
  | _ => True

def apply (b : β) : Event ι π β → Cell ι π
  | .start i p b' =>
    if b' = b then
      { c with
        flight := insert (i, p) c.flight
        landed := {x ∈ c.landed | x.1 = i}
        started := insert i c.started }
    else c
  | .await i p b' =>
    if b' = b then { c with flight := c.flight \ {(i, p)}, landed := insert (i, p) c.landed } else c
  | .copy i _ b₂ =>
    if b₂ = b then { c with landed := {x | x.1 = i ∧ x.2 ∈ items.parts i} } else c
  | .use _ _ => c
  | .done i => { c with done := insert i c.done }
  | .take i b' full =>
    if b' = b then
      { c with
        mine := true
        landed := {x | full = true ∧ x.1 = i ∧ x.2 ∈ items.parts i} }
    else c
  | .give _ b' => if b' = b then { c with mine := false, landed := ∅ } else c

end Cell

/-- After the events `es` the buffer's cell meets `Q`, and each event was allowed on the way;
    events that cannot happen need not be. -/
def wp [DecidableEq β] (b : β) : List (Event ι π β) → (Cell ι π → Prop) → Cell ι π → Prop
  | [], Q, c => Q c
  | e :: es, Q, c => c.Enabled b e → c.Allows items b e ∧ wp b es Q (c.apply items b e)

/-! ### What a cell says about the machine -/

/-- A part's bytes are in the buffer. -/
def State.There (s : State ι π β ν V) (b : β) (i : ι) (p : π) : Prop :=
  ∀ n ∈ items.span i p, s.mem b n = items.bytes i n

/-- The buffer is what its cell says, and the cell accepts what is to come. -/
structure Cell.Fits [DecidableEq β] (c : Cell ι π) (b : β) (s : State ι π β ν V) : Prop where
  accepts : wp items b s.todo (fun _ => True) c
  mine : c.mine = s.mine b
  flight : ∀ i p, (i, p, b) ∈ s.flight → (i, p) ∈ c.flight
  /-- Nothing is on its way to somebody else's buffer. -/
  free : c.mine = false → c.flight = ∅
  /-- The parts are those of one item. -/
  single : ∀ x ∈ c.flight ∪ c.landed, ∀ y ∈ c.flight ∪ c.landed, x.1 = y.1
  landed : c.mine = true → ∀ x ∈ c.landed, s.There items b x.1 x.2
  /-- A part that is no longer on its way is there before it is waited for. -/
  arrived : c.mine = true → ∀ x ∈ c.flight, (x.1, x.2, b) ∉ s.flight → s.There items b x.1 x.2
  started : ∀ i p, .start i p b ∈ s.past → i ∈ c.started
  done : ∀ i ∈ c.done, .done i ∈ s.past

variable {items} {s s' : State ι π β ν V} {c : Cell ι π} {b : β}

/-- A write of an item's own bytes takes none of them away. -/
theorem State.There.write {i : ι} {p : π} (h : s.There items b i p)
    (hrow : ∀ n, s'.mem b n = s.mem b n ∨ s'.mem b n = items.bytes i n) : s'.There items b i p := by
  intro n hn
  rcases hrow n with hold | hnew
  · rw [hold, h n hn]
  · exact hnew

theorem State.There.congr {i : ι} {p : π} (h : s.There items b i p) (hmem : s'.mem b = s.mem b) :
    s'.There items b i p :=
  h.write fun n => .inl (congrFun hmem n)

theorem Cell.Whole.stored {i : ι} (h : c.Whole items i)
    (hlanded : ∀ x ∈ c.landed, s.There items b x.1 x.2) : items.Stored i (s.mem b) :=
  fun p hp => hlanded (i, p) (h p hp)

variable [DecidableEq β] {e : Event ι π β} {rest : List (Event ι π β)}

/-! ### Steps of the others -/

namespace Cell.Fits

/-- A step that leaves the program and the buffers' owners as they are. -/
theorem of_write (h : c.Fits items b s) (hpast : s'.past = s.past) (htodo : s'.todo = s.todo)
    (hflight : s'.flight ⊆ s.flight) (hmine : s'.mine = s.mine)
    (hwrite : c.mine = true → ∀ x ∈ c.flight ∪ c.landed, ∀ n,
      s'.mem b n = s.mem b n ∨ s'.mem b n = items.bytes x.1 n)
    (hcame : c.mine = true → ∀ x ∈ c.flight, (x.1, x.2, b) ∈ s.flight → (x.1, x.2, b) ∉ s'.flight →
      s'.There items b x.1 x.2) : c.Fits items b s' where
  accepts := by
    rw [htodo]
    exact h.accepts
  mine := by
    rw [hmine]
    exact h.mine
  flight i p hf := h.flight i p (hflight hf)
  free := h.free
  single := h.single
  landed hb x hx := (h.landed hb x hx).write (hwrite hb x (.inr hx))
  arrived hb x hx hout := by
    by_cases hin : (x.1, x.2, b) ∈ s.flight
    · exact hcame hb x hx hin hout
    · exact (h.arrived hb x hx hin).write (hwrite hb x (.inl hx))
  started i p hs := h.started i p (hpast ▸ hs)
  done i hi := hpast ▸ h.done i hi

/-- A read that is out writes to no place of another item's. -/
theorem same_item (h : c.Fits items b s) {i : ι} {p : π} (hf : (i, p, b) ∈ s.flight) :
    ∀ x ∈ c.flight ∪ c.landed, x.1 = i :=
  fun x hx => h.single x hx (i, p) (.inl (h.flight i p hf))

theorem arrive [DecidableEq ν] (h : c.Fits items b s) {i : ι} {p : π} {b' : β} {n : ν}
    (hf : (i, p, b') ∈ s.flight) : c.Fits items b { s with
      mem := Function.update s.mem b' (Function.update (s.mem b') n (items.bytes i n)) } := by
  refine h.of_write rfl rfl subset_rfl rfl ?_ fun _ x _ hin hout => absurd hin hout
  intro _ x hx n'
  by_cases hb : b = b'
  · subst hb
    rw [h.same_item hf x hx]
    by_cases hn : n' = n
    · subst hn
      exact .inr (by simp)
    · exact .inl (by simp [hn])
  · exact .inl (by simp [hb])

theorem other [DecidableEq ν] (h : c.Fits items b s) {b' : β} {n : ν} {v : V}
    (hmine : s.mine b' = false) : c.Fits items b
      { s with mem := Function.update s.mem b' (Function.update (s.mem b') n v) } := by
  refine h.of_write rfl rfl subset_rfl rfl ?_ fun _ x _ hin hout => absurd hin hout
  intro hb x _ n'
  have hne : b ≠ b' := by
    rintro rfl
    rw [h.mine, hmine] at hb
    cases hb
  exact .inl (by simp [hne])

open Classical in
theorem finish (h : c.Fits items b s) {i : ι} {p : π} {b' : β} (hf : (i, p, b') ∈ s.flight) :
    c.Fits items b { s with
      flight := s.flight \ {(i, p, b')}
      mem := Function.update s.mem b' fun n =>
        if n ∈ items.span i p then items.bytes i n else s.mem b' n } := by
  refine h.of_write rfl rfl (fun _ hx => hx.1) rfl ?_ ?_
  · intro _ x hx n
    by_cases hb : b = b'
    · subst hb
      rw [h.same_item hf x hx]
      by_cases hn : n ∈ items.span i p
      · exact .inr (by simp [hn])
      · exact .inl (by simp [hn])
    · exact .inl (by simp [hb])
  · intro _ x _ hin hout n hn
    -- the only read that left is the one that is complete
    have hx : (x.1, x.2, b) = (i, p, b') := by
      by_contra hne
      exact hout ⟨hin, hne⟩
    obtain ⟨rfl, rfl, rfl⟩ : x.1 = i ∧ x.2 = p ∧ b = b' := by simpa using hx
    simp [hn]

/-! ### Steps of the program -/

theorem enabled (h : c.Fits items b s) (hpermits : s.permits items e) : c.Enabled b e := by
  cases e with
  | take i b' full =>
    rintro rfl
    rw [h.mine]
    exact hpermits.1
  | start i p b' => trivial
  | await i p b' => trivial
  | copy i b₁ b₂ => trivial
  | use i b' => trivial
  | done i => trivial
  | give i b' => trivial

/-- The cell allows the program's next event, and accepts the rest. -/
theorem allows (h : c.Fits items b s) (htodo : s.todo = e :: rest) (hpermits : s.permits items e) :
    c.Allows items b e ∧ wp items b rest (fun _ => True) (c.apply items b e) := by
  have hwp := h.accepts
  rw [htodo] at hwp
  exact hwp (h.enabled hpermits)

/-- No read into the buffer is new, unless the event starts one. -/
theorem started_append (h : c.Fits items b s) (hstart : ∀ i p, e ≠ .start i p b) (i : ι) (p : π)
    (hs : .start i p b ∈ s.past ++ [e]) : i ∈ c.started := by
  rcases List.mem_append.mp hs with hs | hs
  · exact h.started i p hs
  · exact absurd (List.mem_singleton.mp hs).symm (hstart i p)

theorem done_append (h : c.Fits items b s) (i : ι) (hi : i ∈ c.done) : .done i ∈ s.past ++ [e] :=
  List.mem_append_left _ (h.done i hi)

/-- An event that leaves the buffer alone. -/
theorem of_elsewhere (h : c.Fits items b s)
    (hwp : wp items b rest (fun _ => True) (c.apply items b e))
    (hcell : c.apply items b e = c) (hmine : s'.mine b = s.mine b) (hmem : s'.mem b = s.mem b)
    (hflight : ∀ i p, (i, p, b) ∈ s'.flight ↔ (i, p, b) ∈ s.flight)
    (hpast : s'.past = s.past ++ [e]) (htodo : s'.todo = rest) (hstart : ∀ i p, e ≠ .start i p b) :
    (c.apply items b e).Fits items b s' := by
  rw [hcell] at hwp ⊢
  refine ⟨htodo ▸ hwp, h.mine.trans hmine.symm, ?_, h.free, h.single, ?_, ?_, ?_, ?_⟩
  · intro i p hf
    exact h.flight i p ((hflight i p).mp hf)
  · intro hb x hx
    exact (h.landed hb x hx).congr hmem
  · intro hb x hx hout
    exact (h.arrived hb x hx fun hin => hout ((hflight x.1 x.2).mpr hin)).congr hmem
  · rw [hpast]
    exact h.started_append hstart
  · rw [hpast]
    exact h.done_append

theorem start (h : c.Fits items b s) {i : ι} {p : π} {b' : β}
    (htodo : s.todo = .start i p b' :: rest) :
    (c.apply items b (.start i p b')).Fits items b (s.perform (.start i p b') rest) := by
  obtain ⟨hallow, hwp⟩ := h.allows htodo trivial
  -- the cell tells of this buffer only
  by_cases hb : b' = b
  · subst hb
    obtain ⟨hmine, hclear, -⟩ := hallow rfl
    have hcell : c.apply items b' (.start i p b') = { c with
      flight := insert (i, p) c.flight
      landed := {x ∈ c.landed | x.1 = i}
      started := insert i c.started } := if_pos rfl
    rw [hcell] at hwp ⊢
    have hitem : ∀ x ∈ insert (i, p) c.flight ∪ {x ∈ c.landed | x.1 = i}, x.1 = i := by
      rintro x ((rfl | hx) | hx)
      · rfl
      · exact (hclear x hx).1
      · exact hx.2
    refine ⟨hwp, h.mine, ?_, ?_, ?_, ?_, ?_, ?_, ?_⟩
    · rintro j q (hf | hf)
      · obtain ⟨rfl, rfl, -⟩ : j = i ∧ q = p ∧ b' = b' := by simpa using hf
        exact .inl rfl
      · exact .inr (h.flight j q hf)
    · intro hfree
      rw [hmine] at hfree
      cases hfree
    · intro x hx y hy
      rw [hitem x hx, hitem y hy]
    · intro _ x hx
      exact h.landed hmine x hx.1
    · rintro _ x (rfl | hx) hout
      · exact absurd (.inl rfl) hout
      · exact h.arrived hmine x hx fun hin => hout (.inr hin)
    · intro j q hs
      rcases List.mem_append.mp hs with hs | hs
      · exact .inr (h.started j q hs)
      · obtain ⟨rfl, -⟩ : j = i ∧ q = p := by simpa using hs
        exact .inl rfl
    · exact h.done_append
  · refine h.of_elsewhere hwp (if_neg hb) rfl rfl ?_ rfl rfl ?_
    · intro j q
      refine ⟨fun hf => ?_, .inr⟩
      rcases hf with hf | hf
      · obtain ⟨-, -, rfl⟩ : j = i ∧ q = p ∧ b = b' := by simpa using hf
        exact absurd rfl hb
      · exact hf
    · intro j q heq
      cases heq
      exact hb rfl

theorem await (h : c.Fits items b s) {i : ι} {p : π} {b' : β}
    (htodo : s.todo = .await i p b' :: rest) (hpermits : s.permits items (.await i p b')) :
    (c.apply items b (.await i p b')).Fits items b (s.perform (.await i p b') rest) := by
  obtain ⟨hallow, hwp⟩ := h.allows htodo hpermits
  have hstart : ∀ j q, (.await i p b' : Event ι π β) ≠ .start j q b := fun _ _ heq => by cases heq
  by_cases hb : b' = b
  · subst hb
    have hout : (i, p) ∈ c.flight := hallow rfl
    have hcell : c.apply items b' (.await i p b') =
      { c with flight := c.flight \ {(i, p)}, landed := insert (i, p) c.landed } := if_pos rfl
    rw [hcell] at hwp ⊢
    have hsub : ∀ x ∈ c.flight \ {(i, p)} ∪ insert (i, p) c.landed, x ∈ c.flight ∪ c.landed := by
      rintro x (hx | rfl | hx)
      · exact .inl hx.1
      · exact .inl hout
      · exact .inr hx
    refine ⟨hwp, h.mine, ?_, ?_, ?_, ?_, ?_, ?_, ?_⟩
    · intro j q hf
      refine ⟨h.flight j q hf, fun heq => ?_⟩
      obtain ⟨rfl, rfl⟩ : j = i ∧ q = p := by simpa using heq
      exact hpermits hf
    · intro hfree
      have hempty := h.free hfree
      rw [hempty] at hout
      exact hout.elim
    · intro x hx y hy
      exact h.single x (hsub x hx) y (hsub y hy)
    · rintro hmine x (rfl | hx)
      · exact h.arrived hmine _ hout hpermits
      · exact h.landed hmine x hx
    · intro hmine x hx hgone
      exact h.arrived hmine x hx.1 hgone
    · exact h.started_append hstart
    · exact h.done_append
  · exact h.of_elsewhere hwp (if_neg hb) rfl rfl (fun _ _ => Iff.rfl) rfl rfl hstart

theorem copy (h : c.Fits items b s) {i : ι} {b₁ b₂ : β} (htodo : s.todo = .copy i b₁ b₂ :: rest)
    (hsource : items.Stored i (s.mem b₁)) :
    (c.apply items b (.copy i b₁ b₂)).Fits items b (s.perform (.copy i b₁ b₂) rest) := by
  obtain ⟨hallow, hwp⟩ := h.allows htodo trivial
  have hstart : ∀ j q, (.copy i b₁ b₂ : Event ι π β) ≠ .start j q b := fun _ _ heq => by cases heq
  by_cases hb : b₂ = b
  · subst hb
    obtain ⟨hmine, hempty⟩ := hallow.2 rfl
    have hcell : c.apply items b₂ (.copy i b₁ b₂) =
      { c with landed := {x | x.1 = i ∧ x.2 ∈ items.parts i} } := if_pos rfl
    rw [hcell] at hwp ⊢
    have hitem : ∀ x ∈ c.flight ∪ {x : ι × π | x.1 = i ∧ x.2 ∈ items.parts i}, x.1 = i := by
      rintro x (hx | hx)
      · rw [hempty] at hx
        exact hx.elim
      · exact hx.1
    refine ⟨hwp, h.mine, h.flight, h.free, ?_, ?_, ?_, ?_, ?_⟩
    · intro x hx y hy
      rw [hitem x hx, hitem y hy]
    · rintro _ x ⟨rfl, hx⟩ n hn
      simpa [State.perform] using hsource x.2 hx n hn
    · intro _ x hx
      rw [hempty] at hx
      exact hx.elim
    · exact h.started_append hstart
    · exact h.done_append
  · exact h.of_elsewhere hwp (if_neg hb) rfl (Function.update_of_ne (Ne.symm hb) ..)
      (fun _ _ => Iff.rfl) rfl rfl hstart

theorem use (h : c.Fits items b s) {i : ι} {b' : β} (htodo : s.todo = .use i b' :: rest) :
    (c.apply items b (.use i b')).Fits items b (s.perform (.use i b') rest) :=
  h.of_elsewhere (h.allows htodo trivial).2 rfl rfl rfl (fun _ _ => Iff.rfl) rfl rfl
    fun _ _ heq => by cases heq

theorem ended (h : c.Fits items b s) {i : ι} (htodo : s.todo = .done i :: rest) :
    (c.apply items b (.done i)).Fits items b (s.perform (.done i) rest) := by
  obtain ⟨-, hwp⟩ := h.allows htodo trivial
  refine ⟨hwp, h.mine, h.flight, h.free, h.single, h.landed, h.arrived, ?_, ?_⟩
  · intro j q hs
    rcases List.mem_append.mp hs with hs | hs
    · exact h.started j q hs
    · cases List.mem_singleton.mp hs
  · rintro j (rfl | hj)
    · exact List.mem_append_right _ (List.mem_singleton.mpr rfl)
    · exact List.mem_append_left _ (h.done j hj)

theorem take (h : c.Fits items b s) {i : ι} {b' : β} {full : Bool}
    (htodo : s.todo = .take i b' full :: rest) (hpermits : s.permits items (.take i b' full)) :
    (c.apply items b (.take i b' full)).Fits items b (s.perform (.take i b' full) rest) := by
  obtain ⟨-, hwp⟩ := h.allows htodo hpermits
  have hstart : ∀ j q, (.take i b' full : Event ι π β) ≠ .start j q b :=
    fun _ _ heq => by cases heq
  by_cases hb : b' = b
  · subst hb
    obtain ⟨hfree, hfull⟩ := hpermits
    have hempty : c.flight = ∅ := h.free (h.mine.trans hfree)
    have hcell : c.apply items b' (.take i b' full) = { c with
      mine := true
      landed := {x | full = true ∧ x.1 = i ∧ x.2 ∈ items.parts i} } := if_pos rfl
    rw [hcell] at hwp ⊢
    have hitem : ∀ x ∈ c.flight ∪ {x : ι × π | full = true ∧ x.1 = i ∧ x.2 ∈ items.parts i},
        x.1 = i := by
      rintro x (hx | hx)
      · rw [hempty] at hx
        exact hx.elim
      · exact hx.2.1
    refine ⟨hwp, ?_, h.flight, ?_, ?_, ?_, ?_, ?_, ?_⟩
    · exact (Function.update_self b' _ s.mine).symm
    · rintro ⟨⟩
    · intro x hx y hy
      rw [hitem x hx, hitem y hy]
    · rintro _ x ⟨hyes, rfl, hx⟩
      exact hfull hyes x.2 hx
    · intro _ x hx
      rw [hempty] at hx
      exact hx.elim
    · exact h.started_append hstart
    · exact h.done_append
  · exact h.of_elsewhere hwp (if_neg hb) (Function.update_of_ne (Ne.symm hb) ..) rfl
      (fun _ _ => Iff.rfl) rfl rfl hstart

theorem give (h : c.Fits items b s) {i : ι} {b' : β} (htodo : s.todo = .give i b' :: rest) :
    (c.apply items b (.give i b')).Fits items b (s.perform (.give i b') rest) := by
  obtain ⟨hallow, hwp⟩ := h.allows htodo trivial
  have hstart : ∀ j q, (.give i b' : Event ι π β) ≠ .start j q b := fun _ _ heq => by cases heq
  by_cases hb : b' = b
  · subst hb
    have hempty : c.flight = ∅ := hallow rfl
    have hcell : c.apply items b' (.give i b') = { c with mine := false, landed := ∅ } := if_pos rfl
    rw [hcell] at hwp ⊢
    have hnone : ∀ x, x ∉ c.flight ∪ (∅ : Set (ι × π)) := by
      rintro x (hx | hx)
      · rw [hempty] at hx
        exact hx
      · exact hx
    refine ⟨hwp, ?_, h.flight, fun _ => hempty, fun x hx => absurd hx (hnone x), ?_, ?_, ?_, ?_⟩
    · exact (Function.update_self b' _ s.mine).symm
    · rintro ⟨⟩
    · rintro ⟨⟩
    · exact h.started_append hstart
    · exact h.done_append
  · exact h.of_elsewhere hwp (if_neg hb) (Function.update_of_ne (Ne.symm hb) ..) rfl
      (fun _ _ => Iff.rfl) rfl rfl hstart

theorem step (h : c.Fits items b s) (htodo : s.todo = e :: rest) (hpermits : s.permits items e)
    (hsource : ∀ i b₁ b₂, e = .copy i b₁ b₂ → items.Stored i (s.mem b₁)) :
    (c.apply items b e).Fits items b (s.perform e rest) := by
  cases e with
  | start i p b' => exact h.start htodo
  | await i p b' => exact h.await htodo hpermits
  | copy i b₁ b₂ => exact h.copy htodo (hsource i b₁ b₂ rfl)
  | use i b' => exact h.use htodo
  | done i => exact h.ended htodo
  | take i b' full => exact h.take htodo hpermits
  | give i b' => exact h.give htodo

end Cell.Fits

/-! ### Rules for lists of events -/

section Rules

variable {P Q : Cell ι π → Prop} {es es' : List (Event ι π β)} {α : Type*}

theorem wp_append : wp items b (es ++ es') Q c ↔ wp items b es (wp items b es' Q) c := by
  induction es generalizing c with
  | nil => exact Iff.rfl
  | cons e es ih =>
    constructor
    · intro h henabled
      exact ⟨(h henabled).1, ih.mp (h henabled).2⟩
    · intro h henabled
      exact ⟨(h henabled).1, ih.mpr (h henabled).2⟩

theorem wp_mono (h : wp items b es P c) (hPQ : ∀ c, P c → Q c) : wp items b es Q c := by
  induction es generalizing c with
  | nil => exact hPQ c h
  | cons e es ih => exact fun henabled => ⟨(h henabled).1, ih (h henabled).2⟩

/-- Events that change nothing of the cell. -/
theorem wp_passive (h : ∀ e ∈ es, c.Allows items b e ∧ c.apply items b e = c) (hQ : Q c) :
    wp items b es Q c := by
  induction es with
  | nil => exact hQ
  | cons e es ih =>
    intro _
    obtain ⟨hallow, hsame⟩ := h e List.mem_cons_self
    rw [hsame]
    exact ⟨hallow, ih fun e he => h e (List.mem_cons_of_mem _ he)⟩

variable (items) in
/-- The event is none of the buffer's. -/
def Elsewhere (b : β) (e : Event ι π β) : Prop :=
  ∀ c : Cell ι π, c.Allows items b e ∧ c.apply items b e = c

theorem wp_elsewhere (h : ∀ e ∈ es, Elsewhere items b e) (hQ : Q c) : wp items b es Q c :=
  wp_passive (fun e he => h e he c) hQ

section Places

variable {b' b₁ b₂ : β} {i : ι} {p : π} {full : Bool}

theorem elsewhere_start (h : b' ≠ b) : Elsewhere items b (.start i p b') :=
  fun _ => ⟨fun heq => absurd heq h, if_neg h⟩

theorem elsewhere_await (h : b' ≠ b) : Elsewhere items b (.await i p b') :=
  fun _ => ⟨fun heq => absurd heq h, if_neg h⟩

theorem copy_passive (h₂ : b₂ ≠ b) (h : b₁ = b → c.mine = true ∧ c.Whole items i) :
    c.Allows items b (.copy i b₁ b₂) ∧ c.apply items b (.copy i b₁ b₂) = c :=
  ⟨⟨h, fun heq => absurd heq h₂⟩, if_neg h₂⟩

theorem elsewhere_take (h : b' ≠ b) : Elsewhere items b (.take i b' full) :=
  fun _ => ⟨trivial, if_neg h⟩

theorem elsewhere_give (h : b' ≠ b) : Elsewhere items b (.give i b') :=
  fun _ => ⟨fun heq => absurd heq h, if_neg h⟩

end Places

/-- Of events made for each of a list's members, those of one member are the buffer's. -/
theorem wp_only {f : α → List (Event ι π β)} {l : List α} {x : α} (hnodup : l.Nodup) (hx : x ∈ l)
    (hother : ∀ y ∈ l, y ≠ x → ∀ e ∈ f y, Elsewhere items b e) (h : wp items b (f x) Q c) :
    wp items b (l.flatMap f) Q c := by
  obtain ⟨l₁, l₂, rfl⟩ := List.append_of_mem hx
  rw [List.nodup_append, List.nodup_cons] at hnodup
  obtain ⟨-, ⟨hx₂, -⟩, hdisj⟩ := hnodup
  rw [List.flatMap_append, List.flatMap_cons, wp_append]
  apply wp_elsewhere
  · intro e he
    obtain ⟨y, hy, he⟩ := List.mem_flatMap.mp he
    exact hother y (List.mem_append_left _ hy) (hdisj y hy x List.mem_cons_self) e he
  · rw [wp_append]
    refine wp_mono h fun c hc => wp_elsewhere (fun e he => ?_) hc
    obtain ⟨y, hy, he⟩ := List.mem_flatMap.mp he
    refine hother y (List.mem_append_right _ (List.mem_cons_of_mem _ hy)) ?_ e he
    rintro rfl
    exact hx₂ hy

theorem wp_none {f : α → List (Event ι π β)} {l : List α}
    (h : ∀ y ∈ l, ∀ e ∈ f y, Elsewhere items b e) (hQ : Q c) : wp items b (l.flatMap f) Q c := by
  apply wp_elsewhere _ hQ
  intro e he
  obtain ⟨y, hy, he⟩ := List.mem_flatMap.mp he
  exact h y hy e he

/-- What the events of each member keep, those of all members keep. -/
theorem wp_each {f : α → List (Event ι π β)} {l : List α}
    (h : ∀ x ∈ l, ∀ c, Q c → wp items b (f x) Q c) (hQ : Q c) : wp items b (l.flatMap f) Q c := by
  induction l generalizing c with
  | nil => exact hQ
  | cons x l ih =>
    rw [List.flatMap_cons, wp_append]
    exact wp_mono (h x List.mem_cons_self c hQ) fun c' hc' =>
      ih (fun y hy => h y (List.mem_cons_of_mem _ hy)) hc'

theorem wp_dones {f : α → ι} {xs : List α}
    (hQ : Q { c with done := c.done ∪ {i | ∃ x ∈ xs, f x = i} }) :
    wp items b (xs.map fun x => (.done (f x) : Event ι π β)) Q c := by
  induction xs generalizing c with
  | nil => simpa [wp] using hQ
  | cons x xs ih =>
    have hdone : insert (f x) c.done ∪ {i | ∃ y ∈ xs, f y = i} =
        c.done ∪ {i | ∃ y ∈ x :: xs, f y = i} := by
      ext j
      constructor
      · rintro ((rfl | hj) | ⟨y, hy, rfl⟩)
        · exact .inr ⟨x, List.mem_cons_self, rfl⟩
        · exact .inl hj
        · exact .inr ⟨y, List.mem_cons_of_mem _ hy, rfl⟩
      · rintro (hj | ⟨y, hy, rfl⟩)
        · exact .inl (.inr hj)
        · rcases List.mem_cons.mp hy with rfl | hy
          · exact .inl (.inl rfl)
          · exact .inr ⟨y, hy, rfl⟩
    rw [← hdone] at hQ
    exact fun _ => ⟨trivial, ih hQ⟩

/-- The reads of an item's parts go out. -/
theorem wp_starts {i : ι} {ps : List π} (hnodup : ps.Nodup) (hmine : c.mine = true)
    (hflight : ∀ x ∈ c.flight, x.1 = i ∧ x.2 ∉ ps) (hsettled : c.Settled items i)
    (hQ : ∀ c' : Cell ι π, c'.mine = true → c'.flight = c.flight ∪ {x | x.1 = i ∧ x.2 ∈ ps} →
      c'.started ⊆ insert i c.started → c'.done = c.done → Q c') :
    wp items b (ps.map fun p => .start i p b) Q c := by
  induction ps generalizing c with
  | nil =>
    apply hQ c hmine _ (Set.subset_insert i _) rfl
    simp
  | cons p ps ih =>
    obtain ⟨hp, hps⟩ := List.nodup_cons.mp hnodup
    refine fun _ => ⟨fun _ => ⟨hmine, fun x hx => ⟨(hflight x hx).1, ?_⟩, hsettled⟩, ?_⟩
    · rintro rfl
      exact (hflight x hx).2 List.mem_cons_self
    · have hcell : c.apply items b (.start i p b) = { c with
        flight := insert (i, p) c.flight
        landed := {x ∈ c.landed | x.1 = i}
        started := insert i c.started } := if_pos rfl
      rw [hcell]
      refine ih hps hmine ?_ ?_ ?_
      · rintro x (rfl | hx)
        · exact ⟨rfl, hp⟩
        · exact ⟨(hflight x hx).1, fun hmem => (hflight x hx).2 (List.mem_cons_of_mem _ hmem)⟩
      · rintro j (rfl | hj) hne hneeded
        · exact absurd rfl hne
        · exact hsettled j hj hne hneeded
      · intro c' hmine' hflight' hstarted hdone
        apply hQ c' hmine' _ _ hdone
        · rw [hflight']
          ext ⟨j, q⟩
          simp only [Set.mem_union, Set.mem_insert_iff, Set.mem_ofPred_eq, Prod.mk.injEq,
            List.mem_cons]
          tauto
        · intro j hj
          rcases hstarted hj with rfl | rfl | hj
          · exact .inl rfl
          · exact .inl rfl
          · exact .inr hj

/-- The reads of an item's parts are waited for. -/
theorem wp_awaits {i : ι} {ps : List π} (hnodup : ps.Nodup) (hout : ∀ p ∈ ps, (i, p) ∈ c.flight)
    (hQ : Q { c with
      flight := c.flight \ {x | x.1 = i ∧ x.2 ∈ ps}
      landed := c.landed ∪ {x | x.1 = i ∧ x.2 ∈ ps} }) :
    wp items b (ps.map fun p => .await i p b) Q c := by
  induction ps generalizing c with
  | nil =>
    have hflight : c.flight \ {x | x.1 = i ∧ x.2 ∈ []} = c.flight := by
      ext x
      simp
    have hlanded : c.landed ∪ {x | x.1 = i ∧ x.2 ∈ []} = c.landed := by
      ext x
      simp
    rw [hflight, hlanded] at hQ
    exact hQ
  | cons p ps ih =>
    obtain ⟨hp, hps⟩ := List.nodup_cons.mp hnodup
    refine fun _ => ⟨fun _ => hout p List.mem_cons_self, ?_⟩
    have hcell : c.apply items b (.await i p b) =
      { c with flight := c.flight \ {(i, p)}, landed := insert (i, p) c.landed } := if_pos rfl
    rw [hcell]
    apply ih hps
    · intro q hq
      refine ⟨hout q (List.mem_cons_of_mem _ hq), fun heq => hp ?_⟩
      obtain rfl : q = p := (Prod.mk.injEq .. ▸ Set.mem_singleton_iff.mp heq).2
      exact hq
    · convert hQ using 2
      · ext ⟨j, q⟩
        simp only [Set.mem_sdiff, Set.mem_singleton_iff, Set.mem_ofPred_eq, Prod.mk.injEq,
          List.mem_cons]
        tauto
      · ext ⟨j, q⟩
        simp only [Set.mem_union, Set.mem_insert_iff, Set.mem_ofPred_eq, Prod.mk.injEq,
          List.mem_cons]
        tauto

end Rules

/-! ### Programs with a state of their own -/

/-- What a program does from a state on, and the state it comes to. -/
abbrev Program (σ : Type u) (ι π β : Type u) := σ → List (Event ι π β) × σ

namespace Program

variable {σ α : Type u}

def emit (es : List (Event ι π β)) : Program σ ι π β := fun s => (es, s)

def andThen (m m' : Program σ ι π β) : Program σ ι π β := fun s =>
  let r := m s
  let r' := m' r.2
  (r.1 ++ r'.1, r'.2)

def each (f : α → Program σ ι π β) : List α → Program σ ι π β
  | [] => emit []
  | x :: xs => (f x).andThen (each f xs)

end Program

section Meets

variable {σ α : Type u} {P Q R : σ → Cell ι π → Prop} {m m' : Program σ ι π β}

variable (items) in
/-- From a state and a cell in `P`, the program is in order for the buffer, and comes to `Q`. -/
def Meets (b : β) (P : σ → Cell ι π → Prop) (m : Program σ ι π β)
    (Q : σ → Cell ι π → Prop) : Prop :=
  ∀ s c, P s c → wp items b (m s).1 (Q (m s).2) c

theorem Meets.emit {es : List (Event ι π β)} (h : ∀ s c, P s c → wp items b es (Q s) c) :
    Meets items b P (.emit es) Q :=
  h

theorem Meets.andThen (h : Meets items b P m Q) (h' : Meets items b Q m' R) :
    Meets items b P (m.andThen m') R := by
  intro s c hP
  rw [Program.andThen, wp_append]
  exact wp_mono (h s c hP) (h' (m s).2)

theorem Meets.conseq {P' Q' : σ → Cell ι π → Prop} (h : Meets items b P m Q)
    (hP : ∀ s c, P' s c → P s c) (hQ : ∀ s c, Q s c → Q' s c) : Meets items b P' m Q' :=
  fun s c hP' => wp_mono (h s c (hP s c hP')) (hQ _)

/-- Each member's program keeps `P` and comes to `D` of it, which no other takes back. -/
theorem Meets.each {f : α → Program σ ι π β} {D : α → σ → Prop} {l : List α}
    (h : ∀ x ∈ l, Meets items b P (f x) fun s c => P s c ∧ D x s)
    (hD : ∀ x y s, D x s → D x (f y s).2) :
    Meets items b P (.each f l) fun s c => P s c ∧ ∀ x ∈ l, D x s := by
  have hkeep : ∀ (l : List α) x s, D x s → D x (Program.each f l s).2 := by
    intro l
    induction l with
    | nil => exact fun _ _ hx => hx
    | cons y l ih => exact fun x s hx => ih x _ (hD x y s hx)
  induction l with
  | nil => exact fun s c hP => ⟨hP, fun x hx => by cases hx⟩
  | cons x l ih =>
    intro s c hP
    rw [Program.each, Program.andThen, wp_append]
    refine wp_mono (h x List.mem_cons_self s c hP) fun c' hc' => ?_
    have hrest := ih fun y hy => h y (List.mem_cons_of_mem _ hy)
    refine wp_mono (hrest (f x s).2 c' hc'.1) fun c'' hc'' => ⟨hc''.1, fun y hy => ?_⟩
    rcases List.mem_cons.mp hy with rfl | hy
    · exact hkeep l y _ hc'.2
    · exact hc''.2 y hy

end Meets

/-! ### Programs every buffer accepts -/

/-- The events are in order for every buffer, from the start on. -/
def Accepted (items : Items ι π ν V) (mine : β → Bool) (trace : List (Event ι π β)) : Prop :=
  ∀ b, wp items b trace (fun _ => True) { mine := mine b }

def Sound (items : Items ι π ν V) (s : State ι π β ν V) : Prop :=
  ∀ b, ∃ c : Cell ι π, c.Fits items b s

variable {mine : β → Bool} {trace : List (Event ι π β)}

/-- A buffer the program uses holds what it is used for. -/
theorem Sound.stored (h : Sound items s) {i : ι} (htodo : s.todo = .use i b :: rest) :
    items.Stored i (s.mem b) := by
  obtain ⟨c, hc⟩ := h b
  obtain ⟨hmine, hwhole⟩ := (hc.allows htodo trivial).1 rfl
  exact hwhole.stored (hc.landed hmine)

theorem Sound.copied (h : Sound items s) {i : ι} {b' : β} (htodo : s.todo = .copy i b b' :: rest) :
    items.Stored i (s.mem b) := by
  obtain ⟨c, hc⟩ := h b
  obtain ⟨hmine, hwhole⟩ := (hc.allows htodo trivial).1.1 rfl
  exact hwhole.stored (hc.landed hmine)

theorem Sound.init (haccepted : Accepted items mine trace) (hpast : s.past = [])
    (htodo : s.todo = trace) (hflight : s.flight = ∅) (hmine : s.mine = mine) : Sound items s := by
  intro b
  refine ⟨{ mine := mine b }, ?_, ?_, ?_, fun _ => rfl, ?_, ?_, ?_, ?_, ?_⟩
  · rw [htodo]
    exact haccepted b
  · rw [hmine]
  · intro i p hf
    rw [hflight] at hf
    exact hf.elim
  · rintro x (hx | hx)
    · exact hx.elim
    · exact hx.elim
  · intro _ x hx
    exact hx.elim
  · intro _ x hx
    exact hx.elim
  · intro i p hs
    rw [hpast] at hs
    cases hs
  · intro i hi
    exact hi.elim

variable [DecidableEq ν]

theorem host_step (htodo : s.todo = e :: rest) (hpermits : s.permits items e) :
    (machine items mine trace).step s .host (s.perform e rest) :=
  ⟨e, rest, htodo, hpermits, rfl⟩

open Classical in
theorem finish_step {i : ι} {p : π} (hf : (i, p, b) ∈ s.flight) :
    (machine items mine trace).step s (.finish i p b) { s with
      flight := s.flight \ {(i, p, b)}
      mem := Function.update s.mem b fun n =>
        if n ∈ items.span i p then items.bytes i n else s.mem b n } :=
  ⟨hf, rfl⟩

theorem Sound.step {a : Action ι π β ν V} (h : Sound items s)
    (hstep : (machine items mine trace).step s a s') : Sound items s' := by
  cases a with
  | host =>
    obtain ⟨e, rest, htodo, hpermits, rfl⟩ := hstep
    intro b
    obtain ⟨c, hc⟩ := h b
    refine ⟨c.apply items b e, hc.step htodo hpermits ?_⟩
    rintro i b₁ b₂ rfl
    exact h.copied htodo
  | arrive i p b' n =>
    obtain ⟨hf, -, rfl⟩ := hstep
    intro b
    obtain ⟨c, hc⟩ := h b
    exact ⟨c, hc.arrive hf⟩
  | finish i p b' =>
    obtain ⟨hf, rfl⟩ := hstep
    intro b
    obtain ⟨c, hc⟩ := h b
    exact ⟨c, hc.finish hf⟩
  | other b' n v =>
    obtain ⟨hmine, rfl⟩ := hstep
    intro b
    obtain ⟨c, hc⟩ := h b
    exact ⟨c, hc.other hmine⟩

theorem reachable_sound (haccepted : Accepted items mine trace)
    (h : Reachable (machine items mine trace) s) : Sound items s := by
  apply h.invariant
  · rintro s ⟨hpast, htodo, hflight, hmine⟩
    exact .init haccepted hpast htodo hflight hmine
  · intro s a s' hs hstep
    exact hs.step hstep

/-- Whatever the order the bytes arrived in, an item is whole where it is used. -/
theorem complete_at_use (haccepted : Accepted items mine trace)
    (h : Reachable (machine items mine trace) s) {i : ι} (htodo : s.todo = .use i b :: rest) :
    items.Stored i (s.mem b) :=
  (reachable_sound haccepted h).stored htodo

/-- A read goes out into a buffer with no read of another item on its way to it, and none that
    was read into it before and is still needed. -/
theorem alone_at_start (haccepted : Accepted items mine trace)
    (h : Reachable (machine items mine trace) s) {i : ι} {p : π}
    (htodo : s.todo = .start i p b :: rest) :
    (∀ j q, (j, q, b) ∈ s.flight → j = i ∧ q ≠ p) ∧
      ∀ j q, .start j q b ∈ s.past → j ≠ i → items.needed j → .done j ∈ s.past := by
  obtain ⟨c, hc⟩ := reachable_sound haccepted h b
  obtain ⟨-, hclear, hsettled⟩ := (hc.allows htodo trivial).1 rfl
  refine ⟨fun j q hf => hclear (j, q) (hc.flight j q hf), fun j q hs hne hneeded => ?_⟩
  exact hc.done j (hsettled j (hc.started j q hs) hne hneeded)

end Transfer
