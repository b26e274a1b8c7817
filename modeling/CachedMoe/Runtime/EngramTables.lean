import CachedMoe.Framework.Signed
import CachedMoe.Framework.Table
import CachedMoe.Text.Tokenizer
import Mathlib

/-! # The engram tables

    `runtime/engram_tables.cpp` derives the hash constants of the engram layers from the
    tokenizer and the configuration, and `hash_rows` turns the last tokens into 24 row numbers.
    What is drawn from them is kept in signed 64-bit integers. A computation without a defined
    result, or without an end, is `none`. -/

namespace CachedMoe.Runtime

open CachedMoe.Text

/-! ### What is defined -/

/-- The behaviour of a function that may fail, where it is defined. -/
abbrev Outcome (α : Type) := Option (Result α)

def Outcome.andThen {α β : Type} (o : Outcome α) (f : α → Outcome β) : Outcome β :=
  match o with
  | none => none
  | some (.error e) => some (.error e)
  | some (.ok a) => f a

theorem andThen_ok {α β : Type} {o : Outcome α} {f : α → Outcome β} {b : β}
    (h : o.andThen f = some (.ok b)) : ∃ a, o = some (.ok a) ∧ f a = some (.ok b) := by
  cases o with
  | none => cases h
  | some r =>
    cases r with
    | error e => cases h
    | ok a => exact ⟨a, rfl, h⟩

/-! ### The tables -/

def kEngramHeads : Nat := 8
def kEngramHeadDim : Nat := 256
def kEngramMaxNgram : Nat := 4
def kEngramRowsPerToken : Nat := 24

/-- `EngramTables::LayerTable` -/
structure LayerTable where
  layer : Nat := 0
  num_embeddings : Nat := 0
  multipliers : List Int
  primes : List Int
  offsets : List Int
  deriving Repr, DecidableEq

/-- `pad_id` is compressed already. -/
structure EngramTables where
  compressed_vocab_size : Nat := 0
  max_ngram : Nat := kEngramMaxNgram
  n_heads : Nat := kEngramHeads
  head_dim : Nat := kEngramHeadDim
  pad_id : Int := 0
  token_map : List Int
  layers : List LayerTable
  deriving Repr, DecidableEq

namespace EngramTables

variable (t : EngramTables)

def for_layer (layer : Nat) : Option LayerTable := t.layers.find? fun lt => lt.layer = layer

/-- The loop over the lookbacks: the product of each compressed token with its multiplier. -/
def lookback_loop (lt : LayerTable) (history : List Nat) (position : Nat) :
    (n shift : Nat) → (blocked : Bool) → Outcome (List Int)
  | 0, _, _ => some (.ok [])
  | n + 1, shift, blocked =>
    let blocked := blocked || decide (position < shift)
    let tok := history.getD (position - shift) 0
    if blocked = false ∧ tok ≥ t.token_map.length then
      some (fail .OutOfRange s!"token {tok} is outside the {t.token_map.length}-entry engram map")
    else
      let compressed := if blocked then t.pad_id else t.token_map.getD tok 0
      (Signed.mul compressed (lt.multipliers.getD shift 0)).bind fun prod =>
        (lookback_loop lt history position n (shift + 1) blocked).andThen fun prods =>
          some (.ok (prod :: prods))

/-- The loop over the heads of an n-gram, from column `col` on. -/
def head_loop (lt : LayerTable) (rolling : Int) : (n col : Nat) → Outcome (List Nat)
  | 0, _ => some (.ok [])
  | n + 1, col =>
    (Signed.rem rolling (lt.primes.getD col 0)).bind fun r =>
      (Signed.add r (lt.offsets.getD col 0)).bind fun row =>
        if row < 0 ∨ Signed.to_uint64 row ≥ lt.num_embeddings then
          some (fail .Internal
            s!"engram row {row} outside layer {lt.layer}'s {lt.num_embeddings} rows")
        else
          (head_loop lt rolling n (col + 1)).andThen fun rows =>
            some (.ok (Signed.to_uint64 row :: rows))

/-- The loop over the n-gram orders, from `i` on. -/
def order_loop (lt : LayerTable) (prods : List Int) : (n i : Nat) → (rolling : Int) →
    Outcome (List Nat)
  | 0, _, _ => some (.ok [])
  | n + 1, i, rolling =>
    let rolling := Signed.xor rolling (prods.getD i 0)
    (head_loop lt rolling t.n_heads ((i - 1) * t.n_heads)).andThen fun rows =>
      (order_loop lt prods n (i + 1) rolling).andThen fun rest => some (.ok (rows ++ rest))

/-- `slots` is the size of `out`. -/
def hash_rows (layer : Nat) (history : List Nat) (position slots : Nat) : Outcome (List Nat) :=
  match t.for_layer layer with
  | none => some (fail .NotFound s!"no engram table for layer {layer}")
  | some lt =>
    if slots ≠ kEngramRowsPerToken then
      some (fail .InvalidArgument "engram needs exactly 24 row slots")
    else if position ≥ history.length then
      some (fail .OutOfRange
        s!"position {position} but only {history.length} tokens of history")
    else
      (t.lookback_loop lt history position t.max_ngram 0 false).andThen fun prods =>
        t.order_loop lt prods (t.max_ngram - 1) 1 (prods.getD 0 0)

end EngramTables

/-! ### The normaliser -/

/-- A map of `engram_norm.inc`: what becomes of a code point, where anything does. -/
abbrev NormMap := Nat → Option (List Nat)

def utf8_to_u32 : (fuel : Nat) → Bytes → List Nat
  | 0, _ => []
  | _ + 1, [] => []
  | fuel + 1, c :: s =>
    let b := c.toNat
    let at_ (k : Nat) : Nat := (s.getD (k - 1) 0).toNat &&& 0x3F
    let (cp, n) :=
      if b < 0x80 then (b, 1)
      else if b >>> 5 = 0x6 ∧ 1 ≤ s.length then ((b &&& 0x1F) <<< 6 ||| at_ 1, 2)
      else if b >>> 4 = 0xE ∧ 2 ≤ s.length then
        ((b &&& 0x0F) <<< 12 ||| at_ 1 <<< 6 ||| at_ 2, 3)
      else if b >>> 3 = 0x1E ∧ 3 ≤ s.length then
        ((b &&& 0x07) <<< 18 ||| at_ 1 <<< 12 ||| at_ 2 <<< 6 ||| at_ 3, 4)
      else (0xFFFD, 1)
    cp :: utf8_to_u32 fuel ((c :: s).drop n)

def rust_whitespace (c : Nat) : Bool :=
  decide (c ∈ [0x09, 0x0A, 0x0B, 0x0C, 0x0D, 0x20, 0x85, 0xA0, 0x1680, 0x2028, 0x2029, 0x202F,
    0x205F, 0x3000]) || decide (c ≥ 0x2000 ∧ c ≤ 0x200A)

/-- A Hangul syllable falls into its letters. -/
def normalize_code_point (nm : NormMap) (c : Nat) : List Nat :=
  if c ≥ 0xAC00 ∧ c ≤ 0xD7A3 then
    let k := c - 0xAC00
    [0x1100 + k / 588, 0x1161 + k % 588 / 28] ++ if k % 28 ≠ 0 then [0x11A7 + k % 28] else []
  else (nm c).getD [c]

/-- `[ \t\r\n]` -/
def norm_blank (c : Nat) : Bool := decide (c = 0x20 ∨ c = 0x09 ∨ c = 0x0D ∨ c = 0x0A)

/-- Each run of blanks becomes one; `in_run` inside of one. -/
def collapse_blanks : (in_run : Bool) → List Nat → List Nat
  | _, [] => []
  | in_run, c :: s =>
    if norm_blank c then (if in_run then [] else [0x20]) ++ collapse_blanks true s
    else c :: collapse_blanks false s

def kSentinel : Nat := 0xE000

def engram_normalize (nm : NormMap) (utf8 : Bytes) : Bytes :=
  let s := (utf8_to_u32 utf8.length utf8).flatMap (normalize_code_point nm)
  let w := collapse_blanks false s
  let w := if w = [0x20] then [kSentinel] else w
  let w := ((w.dropWhile rust_whitespace).reverse.dropWhile rust_whitespace).reverse
  w.flatMap fun c => utf8_append (if c = kSentinel then 0x20 else c)

/-! ### numpy's SeedSequence, PCG64 and bounded draw -/

def kInitA : Nat := 0x43b0d7e5
def kMultA : Nat := 0x931e8875
def kInitB : Nat := 0x8b51f9dd
def kMultB : Nat := 0x58f38ded
def kMixL : Nat := 0xca01f9dd
def kMixR : Nat := 0x4973f715

/-- The 32-bit words of a seed, the low one first. -/
def entropy_words : (fuel entropy : Nat) → List Nat
  | 0, _ => []
  | fuel + 1, entropy =>
    entropy % 2 ^ 32 :: if entropy >>> 32 ≠ 0 then entropy_words fuel (entropy >>> 32) else []

/-- The value and the next `hc`. -/
def hashmix (mult v hc : Nat) : Nat × Nat :=
  let v := v ^^^ hc
  let hc := hc * mult % 2 ^ 32
  let v := v * hc % 2 ^ 32
  (v ^^^ v >>> 16, hc)

def mix (x y : Nat) : Nat :=
  let r := (kMixL * x + (2 ^ 32 - kMixR * y % 2 ^ 32)) % 2 ^ 32
  r ^^^ r >>> 16

/-- `pool[d] = mix(pool[d], hashmix(v))` -/
def mix_into (d v : Nat) (st : List Nat × Nat) : List Nat × Nat :=
  let r := hashmix kMultA v st.2
  (st.1.set d (mix (st.1.getD d 0) r.1), r.2)

def seed_pool (ent : List Nat) : List Nat :=
  let st := (List.range 4).foldl (fun (st : List Nat × Nat) i =>
    let r := hashmix kMultA (ent.getD i 0) st.2
    (st.1 ++ [r.1], r.2)) ([], kInitA)
  let st := (List.range 4).foldl (fun st s => (List.range 4).foldl (fun st d =>
    if s ≠ d then mix_into d (st.1.getD s 0) st else st) st) st
  let st := (ent.drop 4).foldl (fun st e => (List.range 4).foldl (fun st d =>
    mix_into d e st) st) st
  st.1

/-- The words `i` on of the output. -/
def state_words (pool : List Nat) : (n i h : Nat) → List Nat
  | 0, _, _ => []
  | n + 1, i, h =>
    let r := hashmix kMultB (pool.getD (i % 4) 0) h
    r.1 :: state_words pool n (i + 1) r.2

/-- Two 32-bit words are one of 64 bits, the low one first. -/
def seed_sequence_state (entropy n_words64 : Nat) : List Nat :=
  let w := state_words (seed_pool (entropy_words 2 entropy)) (n_words64 * 2) 0 kInitB
  (List.range n_words64).map fun j => w.getD (2 * j) 0 ||| w.getD (2 * j + 1) 0 <<< 32

structure Pcg64 where
  state : Nat
  inc : Nat
  deriving Repr, DecidableEq

namespace Pcg64

def kMult : Nat := 2549297995355413924 <<< 64 ||| 4865540595714422341

def step (g : Pcg64) : Pcg64 := { g with state := (g.state * kMult + g.inc) % 2 ^ 128 }

def init (seed : Nat) : Pcg64 :=
  let v := seed_sequence_state seed 4
  let initstate := v.getD 0 0 <<< 64 ||| v.getD 1 0
  let initseq := v.getD 2 0 <<< 64 ||| v.getD 3 0
  let g := ({ state := 0, inc := initseq <<< 1 % 2 ^ 128 ||| 1 } : Pcg64).step
  ({ g with state := (g.state + initstate) % 2 ^ 128 } : Pcg64).step

/-- The draw and the generator behind it. -/
def next64 (g : Pcg64) : Nat × Pcg64 :=
  let g := g.step
  let x := g.state >>> 64 ^^^ g.state % 2 ^ 64
  let rot := g.state >>> 122
  (x >>> rot ||| x <<< (64 - rot &&& 63) % 2 ^ 64, g)

end Pcg64

/-- `while (lo < threshold)`: the product that is taken. The generator has `2 ^ 128` states. -/
def reject_loop (ex threshold : Nat) : (fuel m : Nat) → (g : Pcg64) → Option (Nat × Pcg64)
  | 0, _, _ => none
  | fuel + 1, m, g =>
    if m % 2 ^ 64 < threshold then
      let r := g.next64
      reject_loop ex threshold fuel (r.1 * ex) r.2
    else some (m, g)

def draw_loop (rng : Nat) : (n : Nat) → (g : Pcg64) → Option (List Int)
  | 0, _ => some []
  | n + 1, g =>
    if rng ≤ 0xFFFFFFFF then (draw_loop rng n g).map fun out => -1 :: out
    else
      let ex := rng + 1
      let r := g.next64
      let m := r.1 * ex
      let lo := m % 2 ^ 64
      -- without rejection the draw is not compared with the threshold
      let drawn :=
        if lo < ex then reject_loop ex ((2 ^ 64 - 1 - rng) % ex) (2 ^ 128 + 1) m r.2
        else some (m, r.2)
      drawn.bind fun d => (draw_loop rng n d.2).map fun out => Signed.of_uint64 (d.1 >>> 64) :: out

def numpy_rng_integers (seed : Nat) (high : Int) (n : Nat) : Option (List Int) :=
  if high ≤ 1 then some (List.replicate n 0)
  else draw_loop (Signed.to_uint64 high - 1) n (Pcg64.init seed)

/-! ### Primes -/

def kPrimeBases : List Nat := [2, 3, 5, 7, 11, 13, 17, 19, 23, 29, 31, 37]

def powmod_loop (m : Nat) : (fuel a e r : Nat) → Nat
  | 0, _, _, r => r
  | fuel + 1, a, e, r =>
    if e = 0 then r
    else powmod_loop m fuel (a * a % m) (e >>> 1) (if e &&& 1 = 1 then r * a % m else r)

def powmod (a e m : Nat) : Nat := powmod_loop m 64 (a % m) e 1

/-- `while ((d & 1) == 0)` -/
def odd_part : (fuel d s : Nat) → Nat × Nat
  | 0, d, s => (d, s)
  | fuel + 1, d, s => if d &&& 1 = 0 then odd_part fuel (d >>> 1) (s + 1) else (d, s)

/-- Whether squaring comes to `n - 1` in at most `k` steps. -/
def square_loop (n : Nat) : (k x : Nat) → Bool
  | 0, _ => false
  | k + 1, x =>
    let x := x * x % n
    if x = n - 1 then true else square_loop n k x

def is_prime (n : Nat) : Bool :=
  if n < 2 then false
  else
    match kPrimeBases.find? fun p => n % p = 0 with
    | some p => decide (n = p)
    | none =>
      let ds := odd_part 64 (n - 1) 0
      kPrimeBases.all fun a =>
        let x := powmod a ds.1 n
        decide (x = 1 ∨ x = n - 1) || square_loop n (ds.2 - 1) x

/-- `while (!is_prime(c) || seen.count(c)) ++c`; after `2 ^ 64` steps every number was tried. -/
def next_prime (seen : List Nat) : (fuel c : Nat) → Option Nat
  | 0, _ => none
  | fuel + 1, c =>
    if is_prime c = false ∨ c ∈ seen then next_prime seen fuel ((c + 1) % 2 ^ 64) else some c

/-- The primes of the heads of one n-gram order, and all that have been seen. -/
def draw_heads : (n : Nat) → (current : Nat) → (seen : List Nat) → Option (List Nat × List Nat)
  | 0, _, seen => some ([], seen)
  | n + 1, current, seen =>
    (next_prime seen (2 ^ 64) ((current + 1) % 2 ^ 64)).bind fun c =>
      (draw_heads n c (c :: seen)).map fun d => (c :: d.1, d.2)

/-- The primes of a layer. -/
def draw_primes (engram_vocab_size n_heads : Nat) : (orders : Nat) → (seen : List Nat) →
    Option (List Nat × List Nat)
  | 0, seen => some ([], seen)
  | orders + 1, seen =>
    (draw_heads n_heads ((engram_vocab_size + (2 ^ 64 - 1)) % 2 ^ 64) seen).bind fun d =>
      (draw_primes engram_vocab_size n_heads orders d.2).map fun rest => (d.1 ++ rest.1, rest.2)

/-- The offsets of the columns with primes `cs`, and the offset behind them. -/
def place_columns : List Nat → (off : Int) → Option (List Int × Int)
  | [], off => some ([], off)
  | c :: cs, off =>
    (Signed.add off (Signed.of_uint64 c)).bind fun next =>
      (place_columns cs next).map fun r => (off :: r.1, r.2)

/-! ### The derivation -/

/-- The fields of `TextConfig` the tables come from. -/
structure EngramConfig where
  engram_layer_ids : List Int
  engram_num_embeddings : List Int
  engram_max_ngram_size : Nat
  engram_vocab_size : Nat
  engram_n_heads : Nat
  engram_head_dim : Nat
  engram_pad_token_id : Nat
  engram_compressed_vocab_size : Nat
  deriving Repr, DecidableEq

/-- The primes drawn for layer `li`, by the search of the loop below alone. -/
def layer_primes (cfg : EngramConfig) : (li : Nat) → (seen : List Nat) → Option (List Nat)
  | 0, seen =>
    (draw_primes cfg.engram_vocab_size cfg.engram_n_heads (cfg.engram_max_ngram_size - 1)
      seen).map Prod.fst
  | li + 1, seen =>
    (draw_primes cfg.engram_vocab_size cfg.engram_n_heads (cfg.engram_max_ngram_size - 1)
      seen).bind fun d => layer_primes cfg li d.2

/-- U+FFFD. -/
def kReplacement : Bytes := [0xEF, 0xBF, 0xBD]

/-- The key of a token: its raw string where the decoded text is no text. -/
def token_key (nm : NormMap) (tok : Tokenizer) (id : Nat) : Bytes :=
  let text := tok.decode [id]
  if kReplacement <:+: text then tok.token_string id
  else
    let key := engram_normalize nm text
    if key = [] then text else key

/-- `build_compressed_token_map` over the ids `id` on. -/
def token_map_loop (nm : NormMap) (tok : Tokenizer) : (n id : Nat) → (keys : Table Bytes Int) →
    Table Bytes Int × List Int
  | 0, _, keys => (keys, [])
  | n + 1, id, keys =>
    let keys := keys.emplace (token_key nm tok id) (to_int32 (keys.length % 2 ^ 32))
    let r := token_map_loop nm tok n (id + 1) keys
    (r.1, (keys.find (token_key nm tok id)).getD 0 :: r.2)

/-- The loop over the layers. -/
def layer_loop (cfg : EngramConfig) (bound : Int) : List (Int × Int) → (seen : List Nat) →
    Outcome (List LayerTable)
  | [], _ => some (.ok [])
  | l :: rest, seen =>
    let layer := (l.1 % 2 ^ 32).toNat
    let num_embeddings := Signed.to_uint64 l.2
    (numpy_rng_integers (10007 * layer) bound cfg.engram_max_ngram_size).bind fun m =>
      if m.any (· < 0) then some (fail .Internal "engram multiplier bound below 2^32")
      else
        (draw_primes cfg.engram_vocab_size cfg.engram_n_heads (cfg.engram_max_ngram_size - 1)
          seen).bind fun d =>
          (place_columns d.1 0).bind fun p =>
            if Signed.to_uint64 p.2 ≠ num_embeddings then
              some (fail .Corrupt (s!"engram layer {layer}: the primes sum to {p.2} rows, " ++
                s!"config.json says {num_embeddings}"))
            else
              (layer_loop cfg bound rest d.2).andThen fun layers =>
                some (.ok ({
                  layer, num_embeddings
                  multipliers := m.map (· * 2 + 1)
                  primes := d.1.map Signed.of_uint64
                  offsets := p.1 } :: layers))

def derive_engram_tables (nm : NormMap) (tok : Tokenizer) (cfg : EngramConfig) :
    Outcome EngramTables :=
  if cfg.engram_max_ngram_size ≠ kEngramMaxNgram ∨ cfg.engram_n_heads ≠ kEngramHeads ∨
      cfg.engram_head_dim ≠ kEngramHeadDim then
    some (fail .Corrupt (s!"engram geometry {cfg.engram_max_ngram_size}x{cfg.engram_n_heads}x" ++
      s!"{cfg.engram_head_dim} does not match model/layout.h"))
  else if cfg.engram_layer_ids.length ≠ cfg.engram_num_embeddings.length then
    some (fail .Corrupt "engram_layer_ids and engram_num_embeddings differ in length")
  else
    let n := tok.vocab_size % 2 ^ 32
    let r := token_map_loop nm tok n 0 []
    let compressed_vocab_size := r.1.length % 2 ^ 32
    if cfg.engram_compressed_vocab_size ≠ 0 ∧
        compressed_vocab_size ≠ cfg.engram_compressed_vocab_size then
      some (fail .Corrupt (s!"the tokenizer compresses to {compressed_vocab_size} ids but " ++
        s!"config.json says {cfg.engram_compressed_vocab_size}; every engram hash would differ"))
    else if cfg.engram_pad_token_id ≥ n then
      some (fail .Corrupt "engram_pad_token_id outside the vocabulary")
    else
      let bound : Int := max 1 ((2 ^ 63 - 1) / compressed_vocab_size / 2)
      (layer_loop cfg bound (cfg.engram_layer_ids.zip cfg.engram_num_embeddings) []).andThen
        fun layers => some (.ok {
          compressed_vocab_size
          max_ngram := cfg.engram_max_ngram_size
          n_heads := cfg.engram_n_heads
          head_dim := cfg.engram_head_dim
          pad_id := r.2.getD cfg.engram_pad_token_id 0
          token_map := r.2
          layers })

end CachedMoe.Runtime
