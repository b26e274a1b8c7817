import CachedMoe.Framework.Cursor
import CachedMoe.Runtime.KvFile

/-! # Baked prompts

    `runtime/baked_prompt.cpp`: the exact state after a prompt, in a file bound to a build. One
    walk over the fields, `Codec::state`, both writes and reads them; the reader first checks the
    header, the length and the checksum, and the walk stays inside the payload whatever it holds.

    A file is its bytes; the directory, the temporary file and the rename are left out, and so are
    the fields of the first step's result that the walk does not visit (its times, its breakdown,
    its record and its flags). -/

namespace CachedMoe.Runtime

open CachedMoe Wire

namespace Baked

/-! ### The values -/

/-- `KvRowBackup::Plane`; floats are their bits. -/
structure Plane where
  layer : UInt32 := 0
  ratio : UInt32 := 1
  first_row : UInt32 := 0
  rows : UInt32 := 0
  cmp : List UInt16 := []
  key : List UInt16 := []
  carry_kv : List UInt32 := []
  carry_score : List UInt32 := []
  deriving Repr, DecidableEq

/-- `KvRowBackup`. -/
structure Rows where
  first_pos : UInt32 := 0
  end_pos : UInt32 := 0
  planes : List Plane := []
  deriving Repr, DecidableEq

/-- `KvStore::RingSnapshot`; a position is the bits of an `int64_t`. -/
structure Ring where
  latent_dim : UInt32 := 0
  layer : List UInt32 := []
  slot : List UInt32 := []
  position : List UInt64 := []
  val : List UInt8 := []
  scale : List UInt8 := []
  deriving Repr, DecidableEq

/-- The fields of `DecodeStepResult` in the file. -/
structure First where
  token : UInt32 := 0
  position : UInt32 := 0
  greedy_token : UInt32 := 0
  top1 : UInt32 := 0
  top2 : UInt32 := 0
  candidates : UInt32 := 0
  nucleus_size : UInt32 := 0
  p_token : UInt64 := 0
  retained : UInt64 := 0
  kept : UInt64 := 0
  deriving Repr, DecidableEq

end Baked

structure BakedPrompt where
  tokens : List UInt32 := []
  first : Baked.First := {}
  rows : Baked.Rows := {}
  ring : Baked.Ring := {}
  deriving Repr, DecidableEq

namespace Baked

def limit : Nat := 64 * 2 ^ 20

def kMagic : Nat := 0x31444e554f424d43

def kMaxPlanes : Nat := 64

def kMaxTokens : Nat := 8192

/-! ### Writing -/

def put_plane (pl : Plane) (c : Sink) : Sink :=
  c.scalar .u32 pl.layer |>.scalar .u32 pl.ratio |>.scalar .u32 pl.first_row
    |>.scalar .u32 pl.rows |>.vec limit .u16 pl.cmp |>.vec limit .u16 pl.key
    |>.vec limit .u32 pl.carry_kv |>.vec limit .u32 pl.carry_score

def put_first (first : First) (c : Sink) : Sink :=
  c.scalar .u32 first.token |>.scalar .u32 first.position |>.scalar .u32 first.greedy_token
    |>.scalar .u32 first.top1 |>.scalar .u32 first.top2 |>.scalar .u32 first.candidates
    |>.scalar .u32 first.nucleus_size |>.scalar .u64 first.p_token
    |>.scalar .u64 first.retained |>.scalar .u64 first.kept

def put_ring (ring : Ring) (c : Sink) : Sink :=
  c.scalar .u32 ring.latent_dim |>.vec limit .u32 ring.layer |>.vec limit .u32 ring.slot
    |>.vec limit .u64 ring.position |>.vec limit .u8 ring.val |>.vec limit .u8 ring.scale

/-- The planes and the ring; too many planes end the walk. -/
def put_planes (rows : Rows) (ring : Ring) (c : Sink) : Sink :=
  let c := c.scalar size_word rows.planes.length
  if !c.valid || rows.planes.length > kMaxPlanes then { c with valid := false }
  else put_ring ring (rows.planes.foldl (fun c pl => put_plane pl c) c)

/-- `Codec::state`, writing. -/
def put_state (p : BakedPrompt) (c : Sink) : Sink :=
  let c := c.vec limit .u32 p.tokens
  let c := put_first p.first c
  let c := c.scalar .u32 p.rows.first_pos |>.scalar .u32 p.rows.end_pos
  put_planes p.rows p.ring c

/-- `hash`. -/
def hash (bytes : Bytes) : Nat := fnv1a_tag bytes

def header (identity : Nat) (payload : Bytes) : Bytes :=
  size_word.array [kMagic, identity, payload.length, hash payload]

def write_baked_prompt (identity : Nat) (state : BakedPrompt) : Result Bytes :=
  let c := put_state state {}
  if !c.valid || c.data.length > limit then fail .InvalidArgument "baked prompt too large"
  else .ok (header identity c.data ++ c.data)

/-! ### Reading -/

def get_plane : Act Plane := do
  let layer ← Cursor.scalar .u32 0
  let ratio ← Cursor.scalar .u32 1
  let first_row ← Cursor.scalar .u32 0
  let rows ← Cursor.scalar .u32 0
  let cmp ← Cursor.vec limit .u16
  let key ← Cursor.vec limit .u16
  let carry_kv ← Cursor.vec limit .u32
  let carry_score ← Cursor.vec limit .u32
  return { layer, ratio, first_row, rows, cmp, key, carry_kv, carry_score }

def get_first : Act First := do
  let token ← Cursor.scalar .u32 0
  let position ← Cursor.scalar .u32 0
  let greedy_token ← Cursor.scalar .u32 0
  let top1 ← Cursor.scalar .u32 0
  let top2 ← Cursor.scalar .u32 0
  let candidates ← Cursor.scalar .u32 0
  let nucleus_size ← Cursor.scalar .u32 0
  let p_token ← Cursor.scalar .u64 0
  let retained ← Cursor.scalar .u64 0
  let kept ← Cursor.scalar .u64 0
  return { token, position, greedy_token, top1, top2, candidates, nucleus_size, p_token, retained
           kept }

def get_ring : Act Ring := do
  let latent_dim ← Cursor.scalar .u32 0
  let layer ← Cursor.vec limit .u32
  let slot ← Cursor.vec limit .u32
  let position ← Cursor.vec limit .u64
  let val ← Cursor.vec limit .u8
  let scale ← Cursor.vec limit .u8
  return { latent_dim, layer, slot, position, val, scale }

def get_planes (first_pos end_pos : UInt32) : Act (Rows × Ring) := do
  let n ← Cursor.scalar size_word 0
  if !(← Cursor.is_valid) || n > kMaxPlanes then
    Cursor.invalidate
    return ({ first_pos, end_pos }, {})
  else
    let planes ← Cursor.repeated get_plane n
    let ring ← get_ring
    return ({ first_pos, end_pos, planes }, ring)

/-- `Codec::state`, reading. -/
def get_state : Act BakedPrompt := do
  let tokens ← Cursor.vec limit .u32
  let first ← get_first
  let first_pos ← Cursor.scalar .u32 0
  let end_pos ← Cursor.scalar .u32 0
  let rest ← get_planes first_pos end_pos
  return { tokens, first, rows := rest.1, ring := rest.2 }

/-- Word `i` of the header. -/
def header_word (file : Bytes) (i : Nat) : Nat := (size_word.values 4 (file.take 32)).getD i 0

/-- `none` is an access outside the payload. -/
def read_baked_prompt (file : Option Bytes) (identity : Nat) : Option (Result BakedPrompt) :=
  match file with
  | none => some (fail .NotFound "baked prompt miss")
  | some file =>
    if file.length < 32 ∨ header_word file 0 ≠ kMagic ∨ header_word file 1 ≠ identity ∨
        header_word file 2 > limit then
      some (fail .Corrupt "baked prompt identity/header")
    else
      let data := (file.drop 32).take (header_word file 2)
      if data.length < header_word file 2 ∨ 32 + header_word file 2 < file.length ∨
          hash data ≠ header_word file 3 then
        some (fail .Corrupt "baked prompt checksum/length")
      else
        match get_state { data } with
        | none => none
        | some (p, c) =>
          if !c.valid || c.pos ≠ c.data.length || p.tokens = [] || p.tokens.length > kMaxTokens then
            some (fail .Corrupt "baked prompt payload")
          else some (.ok p)

/-! ### Staying inside the payload -/

theorem get_plane_safe : Safe get_plane :=
  (Safe.scalar _ _).bind fun _ => (Safe.scalar _ _).bind fun _ => (Safe.scalar _ _).bind fun _ =>
  (Safe.scalar _ _).bind fun _ => (Safe.vec _ _).bind fun _ => (Safe.vec _ _).bind fun _ =>
  (Safe.vec _ _).bind fun _ => (Safe.vec _ _).bind fun _ => Safe.pure _

theorem get_first_safe : Safe get_first :=
  (Safe.scalar _ _).bind fun _ => (Safe.scalar _ _).bind fun _ => (Safe.scalar _ _).bind fun _ =>
  (Safe.scalar _ _).bind fun _ => (Safe.scalar _ _).bind fun _ => (Safe.scalar _ _).bind fun _ =>
  (Safe.scalar _ _).bind fun _ => (Safe.scalar _ _).bind fun _ => (Safe.scalar _ _).bind fun _ =>
  (Safe.scalar _ _).bind fun _ => Safe.pure _

theorem get_ring_safe : Safe get_ring :=
  (Safe.scalar _ _).bind fun _ => (Safe.vec _ _).bind fun _ => (Safe.vec _ _).bind fun _ =>
  (Safe.vec _ _).bind fun _ => (Safe.vec _ _).bind fun _ => (Safe.vec _ _).bind fun _ =>
  Safe.pure _

theorem get_planes_safe (first_pos end_pos : UInt32) : Safe (get_planes first_pos end_pos) :=
  (Safe.scalar _ _).bind fun n => Safe.is_valid.bind fun _ =>
  Safe.ite (Safe.invalidate.bind fun _ => Safe.pure _) <|
  (get_plane_safe.repeated n).bind fun _ => get_ring_safe.bind fun _ => Safe.pure _

theorem get_state_safe : Safe get_state :=
  (Safe.vec _ _).bind fun _ => get_first_safe.bind fun _ => (Safe.scalar _ _).bind fun _ =>
  (Safe.scalar _ _).bind fun _ => (get_planes_safe _ _).bind fun _ => Safe.pure _

/-! ### Reading what was written -/

def plane_bytes (pl : Plane) : Bytes :=
  Word.u32.encode pl.layer ++ (Word.u32.encode pl.ratio ++ (Word.u32.encode pl.first_row ++
    (Word.u32.encode pl.rows ++ (vec_bytes .u16 pl.cmp ++ (vec_bytes .u16 pl.key ++
      (vec_bytes .u32 pl.carry_kv ++ vec_bytes .u32 pl.carry_score))))))

def first_bytes (f : First) : Bytes :=
  Word.u32.encode f.token ++ (Word.u32.encode f.position ++ (Word.u32.encode f.greedy_token ++
    (Word.u32.encode f.top1 ++ (Word.u32.encode f.top2 ++ (Word.u32.encode f.candidates ++
      (Word.u32.encode f.nucleus_size ++ (Word.u64.encode f.p_token ++
        (Word.u64.encode f.retained ++ Word.u64.encode f.kept))))))))

def ring_bytes (r : Ring) : Bytes :=
  Word.u32.encode r.latent_dim ++ (vec_bytes .u32 r.layer ++ (vec_bytes .u32 r.slot ++
    (vec_bytes .u64 r.position ++ (vec_bytes .u8 r.val ++ vec_bytes .u8 r.scale))))

def state_bytes (p : BakedPrompt) : Bytes :=
  vec_bytes .u32 p.tokens ++ (first_bytes p.first ++ (Word.u32.encode p.rows.first_pos ++
    (Word.u32.encode p.rows.end_pos ++ (size_word.encode p.rows.planes.length ++
      (p.rows.planes.flatMap plane_bytes ++ ring_bytes p.ring)))))

theorem length_plane_bytes (pl : Plane) :
    (plane_bytes pl).length = 48 + 2 * pl.cmp.length + 2 * pl.key.length +
      4 * pl.carry_kv.length + 4 * pl.carry_score.length := by
  simp only [plane_bytes, vec_bytes, List.length_append, length_le, Word.length_encode,
    Word.length_array]
  simp only [Word.u32, Word.u16]
  omega

/-- The size of a payload. -/
theorem length_state_bytes (p : BakedPrompt) :
    (state_bytes p).length = 120 + 4 * p.tokens.length +
      (p.rows.planes.map fun pl => (plane_bytes pl).length).sum + 4 * p.ring.layer.length +
        4 * p.ring.slot.length + 8 * p.ring.position.length + p.ring.val.length +
          p.ring.scale.length := by
  simp only [state_bytes, first_bytes, ring_bytes, vec_bytes, List.length_append, length_le,
    Word.length_encode, Word.length_array, List.length_flatMap]
  simp only [Word.u32, Word.u64, Word.u8, size_word, Word.nat]
  omega

/-- Arrays of at most `limit` bytes. -/
def Plane.Fits (pl : Plane) : Prop :=
  pl.cmp.length ≤ limit / 2 ∧ pl.key.length ≤ limit / 2 ∧ pl.carry_kv.length ≤ limit / 4 ∧
    pl.carry_score.length ≤ limit / 4

def Ring.Fits (r : Ring) : Prop :=
  r.layer.length ≤ limit / 4 ∧ r.slot.length ≤ limit / 4 ∧ r.position.length ≤ limit / 8 ∧
    r.val.length ≤ limit / 1 ∧ r.scale.length ≤ limit / 1

def Fits (p : BakedPrompt) : Prop :=
  p.tokens.length ≤ limit / 4 ∧ p.rows.planes.length ≤ kMaxPlanes ∧
    (∀ pl ∈ p.rows.planes, pl.Fits) ∧ p.ring.Fits

theorem limit_lt : limit < 2 ^ 64 := by decide

theorem put_plane_puts (pl : Plane) : Puts (put_plane pl) pl.Fits (plane_bytes pl) := by
  have h := (Puts.scalar .u32 pl.layer).comp <| (Puts.scalar .u32 pl.ratio).comp <|
    (Puts.scalar .u32 pl.first_row).comp <| (Puts.scalar .u32 pl.rows).comp <|
    (Puts.vec limit .u16 pl.cmp).comp <| (Puts.vec limit .u16 pl.key).comp <|
    (Puts.vec limit .u32 pl.carry_kv).comp (Puts.vec limit .u32 pl.carry_score)
  refine h.congr ?_
  simp only [true_and]
  exact Iff.rfl

theorem put_first_puts (f : First) : Puts (put_first f) True (first_bytes f) := by
  have h := (Puts.scalar .u32 f.token).comp <| (Puts.scalar .u32 f.position).comp <|
    (Puts.scalar .u32 f.greedy_token).comp <| (Puts.scalar .u32 f.top1).comp <|
    (Puts.scalar .u32 f.top2).comp <| (Puts.scalar .u32 f.candidates).comp <|
    (Puts.scalar .u32 f.nucleus_size).comp <| (Puts.scalar .u64 f.p_token).comp <|
    (Puts.scalar .u64 f.retained).comp (Puts.scalar .u64 f.kept)
  refine h.congr ?_
  simp only [true_and]

theorem put_ring_puts (r : Ring) : Puts (put_ring r) r.Fits (ring_bytes r) := by
  have h := (Puts.scalar .u32 r.latent_dim).comp <| (Puts.vec limit .u32 r.layer).comp <|
    (Puts.vec limit .u32 r.slot).comp <| (Puts.vec limit .u64 r.position).comp <|
    (Puts.vec limit .u8 r.val).comp (Puts.vec limit .u8 r.scale)
  refine h.congr ?_
  simp only [true_and]
  exact Iff.rfl

theorem put_planes_puts (rows : Rows) (ring : Ring) :
    Puts (put_planes rows ring)
      (rows.planes.length ≤ kMaxPlanes ∧ (∀ pl ∈ rows.planes, pl.Fits) ∧ ring.Fits)
      (size_word.encode rows.planes.length ++
        (rows.planes.flatMap plane_bytes ++ ring_bytes ring)) := by
  have hrest := (Puts.foldl fun pl (_ : pl ∈ rows.planes) => put_plane_puts pl).comp
    (put_ring_puts ring)
  have hsize := Puts.scalar size_word rows.planes.length
  constructor
  · rintro s hs ⟨hcount, hfits⟩
    unfold put_planes
    dsimp only
    rw [hsize.ok s hs trivial]
    have hgo : ¬ ((!true || decide (rows.planes.length > kMaxPlanes)) = true) := by
      simp only [Bool.not_true, Bool.false_or, decide_eq_true_eq]
      omega
    rw [if_neg hgo, hrest.ok _ rfl hfits, List.append_assoc]
  · intro s hs
    unfold put_planes at hs
    dsimp only at hs
    split at hs
    · cases hs
    next hgo =>
      simp only [Bool.or_eq_true, Bool.not_eq_true', decide_eq_true_eq, not_or,
        Bool.not_eq_false] at hgo
      obtain ⟨hvalid, hfits⟩ := hrest.bad _ hs
      exact ⟨(hsize.bad s hvalid).1, Nat.le_of_not_lt hgo.2, hfits⟩

/-- The walk writes a state whose arrays fit, and fails on any other. -/
theorem put_state_puts (p : BakedPrompt) : Puts (put_state p) (Fits p) (state_bytes p) := by
  have h := (Puts.vec limit .u32 p.tokens).comp <| (put_first_puts p.first).comp <|
    (Puts.scalar .u32 p.rows.first_pos).comp <| (Puts.scalar .u32 p.rows.end_pos).comp
      (put_planes_puts p.rows p.ring)
  refine h.congr ?_
  simp only [true_and]
  exact Iff.rfl

theorem get_plane_takes {pl : Plane} (h : pl.Fits) : Takes get_plane pl (plane_bytes pl) := by
  obtain ⟨hcmp, hkey, hkv, hscore⟩ := h
  exact (Takes.scalar .u32 _ trivial).bind <| (Takes.scalar .u32 _ trivial).bind <|
    (Takes.scalar .u32 _ trivial).bind <| (Takes.scalar .u32 _ trivial).bind <|
    (Takes.vec (fun _ _ => trivial) hcmp limit_lt).bind <|
    (Takes.vec (fun _ _ => trivial) hkey limit_lt).bind <|
    (Takes.vec (fun _ _ => trivial) hkv limit_lt).bind <|
    (Takes.vec (fun _ _ => trivial) hscore limit_lt).last (.pure pl)

theorem get_first_takes (f : First) : Takes get_first f (first_bytes f) :=
  (Takes.scalar .u32 _ trivial).bind <| (Takes.scalar .u32 _ trivial).bind <|
  (Takes.scalar .u32 _ trivial).bind <| (Takes.scalar .u32 _ trivial).bind <|
  (Takes.scalar .u32 _ trivial).bind <| (Takes.scalar .u32 _ trivial).bind <|
  (Takes.scalar .u32 _ trivial).bind <| (Takes.scalar .u64 _ trivial).bind <|
  (Takes.scalar .u64 _ trivial).bind <| (Takes.scalar .u64 _ trivial).last (.pure f)

theorem get_ring_takes {r : Ring} (h : r.Fits) : Takes get_ring r (ring_bytes r) := by
  obtain ⟨hlayer, hslot, hposition, hval, hscale⟩ := h
  exact (Takes.scalar .u32 _ trivial).bind <|
    (Takes.vec (fun _ _ => trivial) hlayer limit_lt).bind <|
    (Takes.vec (fun _ _ => trivial) hslot limit_lt).bind <|
    (Takes.vec (fun _ _ => trivial) hposition limit_lt).bind <|
    (Takes.vec (fun _ _ => trivial) hval limit_lt).bind <|
    (Takes.vec (fun _ _ => trivial) hscale limit_lt).last (.pure r)

theorem get_planes_takes {rows : Rows} {ring : Ring} (hcount : rows.planes.length ≤ kMaxPlanes)
    (hplanes : ∀ pl ∈ rows.planes, pl.Fits) (hring : ring.Fits) :
    Takes (get_planes rows.first_pos rows.end_pos) (rows, ring)
      (size_word.encode rows.planes.length ++
        (rows.planes.flatMap plane_bytes ++ ring_bytes ring)) := by
  have hsize : size_word.valid rows.planes.length :=
    Nat.lt_of_le_of_lt hcount (by decide)
  refine (Takes.scalar size_word 0 hsize).bind ?_
  apply Takes.is_valid
  have hgo : ¬ ((!true || decide (rows.planes.length > kMaxPlanes)) = true) := by
    simp only [Bool.not_true, Bool.false_or, decide_eq_true_eq]
    omega
  rw [if_neg hgo]
  exact (Takes.repeated fun pl hpl => get_plane_takes (hplanes pl hpl)).bind <|
    (get_ring_takes hring).last (.pure (rows, ring))

/-- The walk reads what it has written. -/
theorem get_state_takes {p : BakedPrompt} (h : Fits p) : Takes get_state p (state_bytes p) := by
  obtain ⟨htokens, hcount, hplanes, hring⟩ := h
  exact (Takes.vec (fun _ _ => trivial) htokens limit_lt).bind <|
    (get_first_takes p.first).bind <| (Takes.scalar .u32 _ trivial).bind <|
    (Takes.scalar .u32 _ trivial).bind <|
    (get_planes_takes hcount hplanes hring).last (.pure p)

/-! ### Files -/

theorem write_ok_iff {identity : Nat} {p : BakedPrompt} {bytes : Bytes} :
    write_baked_prompt identity p = .ok bytes ↔
      Fits p ∧ (state_bytes p).length ≤ limit ∧
        bytes = header identity (state_bytes p) ++ state_bytes p := by
  have hputs := put_state_puts p
  unfold write_baked_prompt
  dsimp only
  by_cases hfits : Fits p
  · rw [hputs.ok {} rfl hfits]
    dsimp only
    rw [List.nil_append]
    by_cases hlen : (state_bytes p).length ≤ limit
    · rw [if_neg (by simpa using hlen)]
      constructor
      · intro h
        exact ⟨hfits, hlen, (Except.ok.inj h).symm⟩
      · rintro ⟨-, -, rfl⟩
        rfl
    · rw [if_pos (by simpa using hlen)]
      constructor
      · intro h
        cases h
      · rintro ⟨-, hle, -⟩
        exact absurd hle hlen
  · have hinvalid : (put_state p {}).valid = false := by
      by_contra hvalid
      exact hfits (hputs.bad {} (Bool.not_eq_false _ ▸ hvalid)).2
    rw [hinvalid, if_pos (by simp)]
    constructor
    · intro h
      cases h
    · rintro ⟨h, -⟩
      exact absurd h hfits

@[simp] theorem length_header (identity : Nat) (payload : Bytes) :
    (header identity payload).length = 32 :=
  size_word.length_array _

theorem header_words {identity : Nat} {payload : Bytes} (hid : identity < 2 ^ 64)
    (hlen : payload.length < 2 ^ 64) (rest : Bytes) :
    size_word.values 4 ((header identity payload ++ rest).take 32) =
      [kMagic, identity, payload.length, hash payload] := by
  have hhash : hash payload < 2 ^ 64 := fnv1a_tag_lt payload
  have hmagic : kMagic < 2 ^ 64 := by decide
  have hvalid : ∀ v ∈ [kMagic, identity, payload.length, hash payload], size_word.valid v := by
    intro v hv
    show v < 256 ^ 8
    rw [show (256 : Nat) ^ 8 = 2 ^ 64 from rfl]
    simp only [List.mem_cons, List.not_mem_nil, or_false] at hv
    rcases hv with rfl | rfl | rfl | rfl
    · exact hmagic
    · exact hid
    · exact hlen
    · exact hhash
  rw [← length_header identity payload, List.take_left]
  exact size_word.values_array hvalid

/-- The reader takes what was written, if it has a sensible number of tokens. -/
theorem read_written {identity : Nat} {p : BakedPrompt} {bytes : Bytes} (hid : identity < 2 ^ 64)
    (hwrite : write_baked_prompt identity p = .ok bytes) (htokens : p.tokens ≠ [])
    (hmax : p.tokens.length ≤ kMaxTokens) :
    read_baked_prompt (some bytes) identity = some (.ok p) := by
  obtain ⟨hfits, hlen, rfl⟩ := write_ok_iff.mp hwrite
  have hsize : (state_bytes p).length < 2 ^ 64 := Nat.lt_of_le_of_lt hlen limit_lt
  have hwords := header_words hid hsize (state_bytes p)
  have hdata : ((header identity (state_bytes p) ++ state_bytes p).drop 32).take
      (state_bytes p).length = state_bytes p := by
    rw [← length_header identity (state_bytes p), List.drop_left, List.take_length]
  unfold read_baked_prompt header_word
  dsimp only
  rw [hwords]
  simp only [List.getD_cons_zero, List.getD_cons_succ]
  rw [hdata]
  have hheader : ¬ ((header identity (state_bytes p) ++ state_bytes p).length < 32 ∨
      kMagic ≠ kMagic ∨ identity ≠ identity ∨ (state_bytes p).length > limit) := by
    rw [List.length_append, length_header]
    simp only [ne_eq, not_true_eq_false, false_or]
    omega
  have hexact : ¬ ((state_bytes p).length < (state_bytes p).length ∨
      32 + (state_bytes p).length < (header identity (state_bytes p) ++ state_bytes p).length ∨
      hash (state_bytes p) ≠ hash (state_bytes p)) := by
    rw [List.length_append, length_header]
    simp only [ne_eq, not_true_eq_false, or_false]
    omega
  rw [if_neg hheader, if_neg hexact]
  have htake := get_state_takes hfits [] [] (by simpa using hsize)
  simp only [List.nil_append, List.append_nil, List.length_nil] at htake
  rw [show ({ data := state_bytes p } : Cursor) =
    { data := state_bytes p, pos := 0, valid := true } from rfl, htake]
  dsimp only
  rw [if_neg (by simp [htokens, hmax])]

/-- The reader always comes to an answer: it never leaves the payload. -/
theorem read_total (file : Option Bytes) (identity : Nat) :
    ∃ r, read_baked_prompt file identity = some r := by
  unfold read_baked_prompt
  cases file with
  | none => exact ⟨_, rfl⟩
  | some file =>
    dsimp only
    split
    · exact ⟨_, rfl⟩
    next hheader =>
    split
    · exact ⟨_, rfl⟩
    have hlen : ((file.drop 32).take (header_word file 2)).length ≤ limit := by
      rw [List.length_take]
      omega
    have hinside : Cursor.Inside { data := (file.drop 32).take (header_word file 2) } :=
      ⟨Nat.zero_le _, Nat.lt_of_le_of_lt hlen limit_lt⟩
    obtain ⟨p, c, hstate, -, -⟩ := get_state_safe _ hinside
    rw [hstate]
    dsimp only
    split
    · exact ⟨_, rfl⟩
    · exact ⟨_, rfl⟩

/-- A file that is accepted is as long as its header says. -/
theorem read_length {file : Bytes} {identity : Nat} {p : BakedPrompt}
    (h : read_baked_prompt (some file) identity = some (.ok p)) :
    file.length = 32 + header_word file 2 := by
  unfold read_baked_prompt at h
  dsimp only at h
  split at h
  · cases Option.some.inj h
  next hheader =>
  split at h
  · cases Option.some.inj h
  next hexact =>
  rw [List.length_take, List.length_drop] at hexact
  omega

/-- A prompt that is accepted has a sensible number of tokens. -/
theorem read_tokens {file : Bytes} {identity : Nat} {p : BakedPrompt}
    (h : read_baked_prompt (some file) identity = some (.ok p)) :
    p.tokens ≠ [] ∧ p.tokens.length ≤ kMaxTokens := by
  unfold read_baked_prompt at h
  dsimp only at h
  split at h
  · cases Option.some.inj h
  split at h
  · cases Option.some.inj h
  cases hstate : get_state { data := (file.drop 32).take (header_word file 2) } with
  | none =>
    rw [hstate] at h
    cases h
  | some read =>
    rw [hstate] at h
    dsimp only at h
    split at h
    · cases Option.some.inj h
    next hgood =>
      obtain rfl := Except.ok.inj (Option.some.inj h)
      simp only [Bool.or_eq_true, decide_eq_true_eq, not_or] at hgood
      exact ⟨hgood.1.2, Nat.le_of_not_lt hgood.2⟩

theorem header_word_append {file : Bytes} (more : Bytes) (h : 32 ≤ file.length) :
    header_word (file ++ more) 2 = header_word file 2 := by
  unfold header_word
  rw [List.take_append_of_le_length h]

/-- The baked prompt codec: what the writer accepts with 1 to 8192 tokens is read back, what is
    cut off or added to a file that was written is rejected, and the reader stays inside whatever
    it is given. -/
theorem baked_prompt_codec (identity : UInt64) :
    (∀ p bytes, write_baked_prompt identity.toNat p = .ok bytes → p.tokens ≠ [] →
      p.tokens.length ≤ kMaxTokens →
        read_baked_prompt (some bytes) identity.toNat = some (.ok p)) ∧
    (∀ p bytes other, write_baked_prompt identity.toNat p = .ok bytes → other ≠ bytes →
      (other <+: bytes ∨ bytes <+: other) →
        ∃ err, read_baked_prompt (some other) identity.toNat = some (.error err)) ∧
    (∀ file p, read_baked_prompt (some file) identity.toNat = some (.ok p) →
      file.length = 32 + header_word file 2) ∧
    ∀ file, ∃ r, read_baked_prompt file identity.toNat = some r := by
  have hid : identity.toNat < 2 ^ 64 := identity.toNat_lt
  refine ⟨fun p bytes hwrite htokens hmax => read_written hid hwrite htokens hmax, ?_,
    fun file p => read_length, fun file => read_total file _⟩
  intro p bytes other hwrite hne hpart
  obtain ⟨r, hr⟩ := read_total (some other) identity.toNat
  cases r with
  | error err => exact ⟨err, hr⟩
  | ok p' =>
    obtain ⟨-, hlen, hbytes⟩ := write_ok_iff.mp hwrite
    have hword : header_word bytes 2 = (state_bytes p).length := by
      rw [hbytes, header_word, header_words hid (Nat.lt_of_le_of_lt hlen limit_lt)]
      rfl
    have hbyteslen : bytes.length = 32 + header_word bytes 2 := by
      rw [hword, hbytes, List.length_append, length_header]
    have hotherlen := read_length hr
    -- both name the same length, so that nothing was cut off or added
    rcases hpart with ⟨more, hmore⟩ | ⟨more, hmore⟩
    · have hsame := header_word_append more (show 32 ≤ other.length by omega)
      rw [hmore] at hsame
      have hlens := congrArg List.length hmore
      rw [List.length_append] at hlens
      have hnil : more = [] := List.eq_nil_of_length_eq_zero (by omega)
      rw [hnil, List.append_nil] at hmore
      exact absurd hmore hne
    · have hsame := header_word_append more (show 32 ≤ bytes.length by omega)
      rw [hmore] at hsame
      have hlens := congrArg List.length hmore
      rw [List.length_append] at hlens
      have hnil : more = [] := List.eq_nil_of_length_eq_zero (by omega)
      rw [hnil, List.append_nil] at hmore
      exact absurd hmore.symm hne

/-! #### A prompt without tokens -/

/-- The writer takes a prompt without tokens, which the reader refuses. -/
theorem baked_prompt_empty :
    ¬ ∀ (identity : UInt64) (p : BakedPrompt) (bytes : Bytes),
      write_baked_prompt identity.toNat p = .ok bytes →
        read_baked_prompt (some bytes) identity.toNat = some (.ok p) := by
  intro h
  have hwrite : write_baked_prompt (0 : UInt64).toNat {} =
      .ok (header (0 : UInt64).toNat (state_bytes {}) ++ state_bytes {}) := by
    rw [write_ok_iff]
    have hlen : (state_bytes {}).length ≤ limit := by
      rw [length_state_bytes]
      decide
    refine ⟨⟨Nat.zero_le _, Nat.zero_le _, fun pl hpl => (List.not_mem_nil hpl).elim, ?_⟩,
      hlen, rfl⟩
    exact ⟨Nat.zero_le _, Nat.zero_le _, Nat.zero_le _, Nat.zero_le _, Nat.zero_le _⟩
  exact (read_tokens (h 0 {} _ hwrite)).1 rfl

/-- One plane and two tokens. -/
def small_prompt : BakedPrompt where
  tokens := [17, 4]
  rows := { end_pos := 2, planes := [{ layer := 1, cmp := [9, 8, 7] }] }
  ring := { latent_dim := 2, layer := [0], slot := [0, 1], val := [1, 2, 3, 4] }

theorem baked_prompt_small :
    ∃ bytes, write_baked_prompt 7 small_prompt = .ok bytes ∧
      read_baked_prompt (some bytes) 7 = some (.ok small_prompt) := by
  have hfits : Fits small_prompt := by
    unfold Fits Ring.Fits Plane.Fits
    decide
  have hwrite : write_baked_prompt (7 : UInt64).toNat small_prompt =
      .ok (header (7 : UInt64).toNat (state_bytes small_prompt) ++ state_bytes small_prompt) := by
    have hlen : (state_bytes small_prompt).length ≤ limit := by
      rw [length_state_bytes]
      simp only [length_plane_bytes]
      decide
    exact write_ok_iff.mpr ⟨hfits, hlen, rfl⟩
  exact ⟨_, hwrite, (baked_prompt_codec 7).1 small_prompt _ hwrite (by decide) (by decide)⟩

end Baked

end CachedMoe.Runtime
