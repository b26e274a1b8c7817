import CachedMoe.Core.Json
import CachedMoe.Text.Utf8

/-! # The tokenizer

    `text/tokenizer.cpp`: the byte-level alphabet, the added-token tries, the three
    pre-tokenizer passes, BPE, and `Tokenizer` itself with `load`, `encode` and `decode`.

    A range of a string or of a vector is modelled by what it holds, so the loops recurse on what
    is left of it. The character classes of `unicode_tables.inc` are the parameter `cls`: the bits
    of each code point. -/

namespace CachedMoe.Text

/-! ### Byte-level alphabet (GPT-2 `bytes_to_unicode`) -/

/-- The bytes that stand for themselves. -/
def byte_keep (b : Nat) : Bool :=
  decide ((33 ≤ b ∧ b ≤ 126) ∨ (161 ≤ b ∧ b ≤ 172) ∨ 174 ≤ b)

/-- `extra` when the constructor of `ByteMap` reaches `b`. -/
def byte_extra (b : Nat) : Nat := (List.range b).countP fun b' => !byte_keep b'

def to_char (b : Nat) : Nat := if byte_keep b then b else 256 + byte_extra b

/-- `none` where the array holds -1: not a byte-level character. -/
def to_byte (c : Nat) : Option Nat := (List.range 256).find? fun b => to_char b = c

/-- The loop of `bytes_of_token_string`; `none` where it returns the string itself. -/
@[grind =] def bytes_of_token_loop : (fuel : Nat) → (s out : Bytes) → Option Bytes
  | 0, _, out => some out
  | _ + 1, [], out => some out
  | fuel + 1, b :: s, out =>
    let (r, cp, len) := utf8_next (b :: s)
    if r ≠ .Ok ∨ cp ≥ 512 then none
    else
      match to_byte cp with
      | none => none
      | some byte => bytes_of_token_loop fuel ((b :: s).drop len) (out ++ [UInt8.ofNat byte])

def bytes_of_token_string (s : Bytes) : Bytes := (bytes_of_token_loop s.length s []).getD s

/-! ### Added-token trie (leftmost-longest) -/

/-- `static_cast<int32_t>(uint32_t)`. -/
def to_int32 (n : Nat) : Int := if n < 2 ^ 31 then n else n - 2 ^ 32

/-- `nodes` holds each node's `id`; an edge's key `(node << 8 | byte)` is the pair. -/
structure Trie where
  nodes : List Int := [-1]
  edges : Table (Nat × UInt8) Nat := []
  deriving Repr, DecidableEq

namespace Trie

/-- One byte of `insert`: the node it leads to, made when it is missing. -/
def descend (tn : Trie × Nat) (b : UInt8) : Trie × Nat :=
  match tn.1.edges.find (tn.2, b) with
  | some m => (tn.1, m)
  | none =>
    let m := tn.1.nodes.length % 2 ^ 32
    ({ nodes := tn.1.nodes ++ [-1], edges := tn.1.edges.put (tn.2, b) m }, m)

def insert (t : Trie) (s : Bytes) (id : Nat) : Trie :=
  let (t, n) := s.foldl descend (t, 0)
  { t with nodes := t.nodes.set n (to_int32 id) }

/-- The loop of `longest_at` from node `n`, `depth` bytes into the string. -/
def longest_from (t : Trie) : (n depth best id : Nat) → Bytes → Nat × Nat
  | _, _, best, id, [] => (best, id)
  | n, depth, best, id, b :: s =>
    match t.edges.find (n, b) with
    | none => (best, id)
    | some m =>
      if t.nodes.getD m (-1) ≥ 0 then
        t.longest_from m (depth + 1) (depth + 1) (t.nodes.getD m (-1)).toNat s
      else t.longest_from m (depth + 1) best id s

/-- The longest token at the start of `s`: its length (0 when there is none) and its id. -/
def longest_at (t : Trie) (s : Bytes) : Nat × Nat := t.longest_from 0 0 0 0 s

def empty (t : Trie) : Bool := t.nodes.length = 1

end Trie

/-- `id` is `none` for ordinary text. -/
structure Segment where
  text : Bytes
  id : Option Nat
  deriving Repr, DecidableEq

/-- `if (i > last) out.push_back({last, i, -1})`. -/
def push_text (text : Bytes) : List Segment := if text = [] then [] else [{ text, id := none }]

/-- The loop of `split_on` over one segment: `last` is the text since the last token. -/
def split_segment (trie : Trie) : (fuel : Nat) → (last rest : Bytes) → List Segment
  | 0, last, _ => push_text last
  | _ + 1, last, [] => push_text last
  | fuel + 1, last, b :: s =>
    let (n, id) := trie.longest_at (b :: s)
    if n = 0 then split_segment trie fuel (last ++ [b]) s
    else
      push_text last ++ { text := (b :: s).take n, id := some id } ::
        split_segment trie fuel [] ((b :: s).drop n)

def split_on (trie : Trie) (segs : List Segment) : List Segment :=
  if trie.empty then segs
  else
    segs.flatMap fun g =>
      if g.id.isSome then [g] else split_segment trie g.text.length [] g.text

/-! ### Pre-tokenizer -/

/-- One piece of `split_isolated`: `last` is what no match has taken yet. -/
def isolate {α : Type} (step : List α → Nat) : (fuel : Nat) → (last rest : List α) → List (List α)
  | 0, last, _ => if last = [] then [] else [last]
  | _ + 1, last, [] => if last = [] then [] else [last]
  | fuel + 1, last, c :: s =>
    let n := step (c :: s)
    if n = 0 then isolate step fuel (last ++ [c]) s
    else
      (if last = [] then [] else [last]) ++ (c :: s).take n ::
        isolate step fuel [] ((c :: s).drop n)

/-- `Split(regex, Isolated)` inside each piece: matches and the gaps between them. `step` is the
    length of the match at the start of what is left of the piece. -/
def split_isolated {α : Type} (step : List α → Nat) (pieces : List (List α)) : List (List α) :=
  pieces.flatMap fun p => isolate step p.length [] p

def kN : Nat := 1
def kL : Nat := 2
def kM : Nat := 4
def kP : Nat := 8
def kS : Nat := 16
def kWS : Nat := 32
def kCJK : Nat := 64

def is_ascii_punct (c : Nat) : Bool :=
  decide ((0x21 ≤ c ∧ c ≤ 0x2F) ∨ (0x3A ≤ c ∧ c ≤ 0x40) ∨ (0x5B ≤ c ∧ c ≤ 0x60) ∨
    (0x7B ≤ c ∧ c ≤ 0x7E))

def is_ascii_alpha (c : Nat) : Bool :=
  decide ((0x41 ≤ c ∧ c ≤ 0x5A) ∨ (0x61 ≤ c ∧ c ≤ 0x7A))

def crlf (c : Nat) : Bool := decide (c = 0x0D ∨ c = 0x0A)

/-- How far `while (j < e && p(j)) ++j` goes. -/
def run_of (p : Nat → Bool) (s : List Nat) : Nat := (s.takeWhile p).length

/-- `i + 1 < e && p(i + 1)` and the like: the piece has a next code point, and it satisfies `p`. -/
def next_is (p : Nat → Bool) (s : List Nat) : Bool := s.head?.any p

section Passes

variable (cls : Nat → Nat)

def has (bits c : Nat) : Bool := decide (cls c &&& bits ≠ 0)

/-- 1. `\p{N}{1,3}` -/
def match_digits (s : List Nat) : Nat := min 3 (run_of (has cls kN) s)

/-- 2. `[一-龥぀-ゟ゠-ヿ]+` -/
def match_cjk (s : List Nat) : Nat := run_of (has cls kCJK) s

/-- A2: an optional code point that is no line break, letter, punctuation or symbol, then letters
    and marks; 0 for no match. -/
def match_letters (c : Nat) (s : List Nat) : Nat :=
  let opt := !crlf c && !has cls (kL ||| kP ||| kS) c
  if opt && next_is (has cls (kL ||| kM)) s then 1 + run_of (has cls (kL ||| kM)) s
  else run_of (has cls (kL ||| kM)) (c :: s)

/-- A3: an optional blank, then punctuation and symbols, then line breaks; 0 for no match. -/
def match_symbols (c : Nat) (s : List Nat) : Nat :=
  let symbols (s : List Nat) :=
    let n := run_of (has cls (kP ||| kS)) s
    n + run_of crlf (s.drop n)
  if c = 0x20 && next_is (has cls (kP ||| kS)) s then 1 + symbols s
  else if has cls (kP ||| kS) c then symbols (c :: s)
  else 0

/-- A4, A5 and A6: through the last line break of the whitespace run, else all of it but the last
    code point when something follows. -/
def match_space (s : List Nat) : Nat :=
  let ws := s.takeWhile (has cls kWS)
  let k := ws.length - (ws.reverse.takeWhile fun c => !crlf c).length
  if k > 0 then k
  else if ws.length = s.length then ws.length
  else if ws.length ≥ 2 then ws.length - 1
  else ws.length

/-- 3. The alternation, leftmost first. -/
def match_words : List Nat → Nat
  | [] => 0
  | c :: s =>
    if is_ascii_punct c && next_is is_ascii_alpha s then 1 + run_of is_ascii_alpha s
    else if match_letters cls c s > 0 then match_letters cls c s
    else if match_symbols cls c s > 0 then match_symbols cls c s
    else match_space cls (c :: s)

end Passes

/-! ### Impl -/

/-- The bits of `flags[id]`: 1 exists, 2 added, 4 special. -/
structure Flags where
  present : Bool := false
  added : Bool := false
  special : Bool := false
  deriving Repr, DecidableEq

/-- `str`, `bytes` and `flags` are indexed by id. The key of `merges` packs two 32-bit ids. An id
    without a token has no bytes. -/
structure Impl where
  vocab_size : Nat
  str : List Bytes
  bytes : List Bytes
  flags : List Flags
  vocab : Table Bytes Nat
  added : Table Bytes Nat
  merges : Table (Nat × Nat) (Nat × Nat)
  byte_id : List Nat
  raw_trie : Trie
  norm_trie : Trie
  absent : ∀ id, (flags.getD id {}).present = false → bytes.getD id [] = []

/-! ### BPE (HF tokenizers' `Word::merge_all`) -/

structure Sym where
  c : Nat
  prev : Int
  next : Int
  len : Nat
  deriving Repr, DecidableEq, Inhabited

/-- A candidate merge of the queue. -/
structure M where
  pos : Nat
  rank : Nat
  id : Nat
  deriving Repr, DecidableEq

/-- The queue's order: `a` is popped before `b`. -/
def M.before (a b : M) : Bool :=
  if a.rank ≠ b.rank then decide (a.rank < b.rank) else decide (a.pos < b.pos)

/-- `q.top()` and `q.pop()`: the least candidate and the others. -/
def pop : List M → Option (M × List M)
  | [] => none
  | m :: q =>
    match pop q with
    | none => some (m, [])
    | some (top, rest) => if top.before m then some (top, m :: rest) else some (m, top :: rest)

section Bpe

variable (merges : Table (Nat × Nat) (Nat × Nat))

/-- The candidate of the pair at `pos`, if it merges; `pos` is stored in 32 bits. -/
def candidate (pos a b : Nat) : List M :=
  match merges.find (a, b) with
  | none => []
  | some (rank, id) => [{ pos := pos % 2 ^ 32, rank, id }]

/-- The writes of a merge at `pos` with its neighbour: the symbol takes the token `id` and the
    neighbour's length and successor, the neighbour dies, and its successor is linked back. -/
def merge_at (sym : List Sym) (pos id : Nat) : List Sym :=
  let cur := sym.getD pos default
  let next_pos := cur.next.toNat
  let right := sym.getD next_pos default
  let sym₁ := sym.set pos
    { c := id, prev := cur.prev, next := right.next, len := (cur.len + right.len) % 2 ^ 32 }
  let sym₂ := sym₁.set next_pos { sym₁.getD next_pos default with len := 0 }
  if right.next > -1 ∧ right.next.toNat < sym.length then
    sym₂.set right.next.toNat { sym₂.getD right.next.toNat default with prev := pos }
  else sym₂

/-- What a merge at `pos` adds to the queue. -/
def push_neighbours (sym : List Sym) (pos : Nat) : List M :=
  let cur := sym.getD pos default
  let left :=
    if cur.prev ≥ 0 then
      candidate merges cur.prev.toNat (sym.getD cur.prev.toNat default).c cur.c
    else []
  let following :=
    if cur.next > -1 ∧ cur.next.toNat < sym.length then
      candidate merges pos cur.c (sym.getD cur.next.toNat default).c
    else []
  left ++ following

/-- One turn of the loop on the candidate popped. -/
def bpe_step (sym : List Sym) (q : List M) (top : M) : List Sym × List M :=
  let cur := sym.getD top.pos default
  if cur.len = 0 ∨ cur.next = -1 then (sym, q)
  else
    let right := sym.getD cur.next.toNat default
    match merges.find (cur.c, right.c) with
    | none => (sym, q)
    | some (_, id) =>
      if id ≠ top.id then (sym, q)
      else
        let sym := merge_at sym top.pos top.id
        (sym, q ++ push_neighbours merges sym top.pos)

/-- The loop: it stops when the queue is empty. -/
def bpe_loop : (fuel : Nat) → List Sym → List M → List Sym
  | 0, sym, _ => sym
  | fuel + 1, sym, q =>
    match pop q with
    | none => sym
    | some (top, q) =>
      let (sym, q) := bpe_step merges sym q top
      bpe_loop fuel sym q

/-- `sym` before the first merge. -/
def initial_syms (ids : List Nat) : List Sym :=
  ids.zipIdx.map fun (c, i) =>
    { c, prev := (i : Int) - 1, next := if i + 1 < ids.length then (i + 1 : Nat) else -1, len := 1 }

/-- `q` before the first merge. -/
def initial_queue (sym : List Sym) : List M :=
  (List.range (sym.length - 1)).flatMap fun i =>
    candidate merges i (sym.getD i default).c (sym.getD (i + 1) default).c

end Bpe

namespace Impl

variable (im : Impl)

def bpe (word : Bytes) : List Nat :=
  match word with
  | [] => []
  | [b] => [im.byte_id.getD b.toNat 0]
  | word =>
    let sym := initial_syms (word.map fun b => im.byte_id.getD b.toNat 0)
    let sym := bpe_loop im.merges (3 * word.length) sym (initial_queue im.merges sym)
    (sym.filter fun s => s.len ≠ 0).map Sym.c

/-- The loop that fills `cp` (invalid UTF-8 → U+FFFD). -/
def read_code_points : (fuel : Nat) → Bytes → List Nat
  | 0, _ => []
  | _ + 1, [] => []
  | fuel + 1, b :: s =>
    let (r, c, len) := utf8_next (b :: s)
    (if r = .Ok then c else 0xFFFD) :: read_code_points fuel ((b :: s).drop len)

/-- The words of the pre-tokenizer. The piece the passes start from ends at
    `uint32_t(cp.size())`. -/
def words (cls : Nat → Nat) (cp : List Nat) : List (List Nat) :=
  let a := [cp.take (cp.length % 2 ^ 32)]
  let b := split_isolated (match_digits cls) a
  let a := split_isolated (match_cjk cls) b
  split_isolated (match_words cls) a

def encode_text (cls : Nat → Nat) (s : Bytes) : List Nat :=
  let cp := read_code_points s.length s
  if cp = [] then [] else (words cls cp).flatMap fun p => im.bpe (encode_all p)

end Impl

/-! ### Tokenizer -/

/-- `impl_` is null until a file has been loaded. -/
structure Tokenizer where
  impl_ : Option Impl

namespace Tokenizer

variable (t : Tokenizer)

def encode (cls : Nat → Nat) (utf8 : Bytes) : List Nat :=
  match t.impl_ with
  | none => []
  | some im =>
    let segs := split_on im.norm_trie (split_on im.raw_trie [{ text := utf8, id := none }])
    segs.flatMap fun g =>
      match g.id with
      | some id => [id]
      | none => im.encode_text cls g.text

/-- The bytes `decode` appends for one id: none for an id without a token, or a special one that
    is skipped. -/
def decoded_bytes (im : Impl) (skip_special : Bool) (id : Nat) : Bytes :=
  if id ≥ im.vocab_size ∨ (im.flags.getD id {}).present = false then []
  else if skip_special && (im.flags.getD id {}).special then []
  else im.bytes.getD id []

def decode (ids : List Nat) (skip_special : Bool := false) : Bytes :=
  match t.impl_ with
  | none => []
  | some im => (utf8_lossy (ids.flatMap (decoded_bytes im skip_special))).1

def token_bytes (id : Nat) : Bytes :=
  match t.impl_ with
  | none => []
  | some im => if id ≥ im.vocab_size then [] else im.bytes.getD id []

def token_string (id : Nat) : Bytes :=
  match t.impl_ with
  | none => []
  | some im => if id ≥ im.vocab_size then [] else im.str.getD id []

def is_special (id : Nat) : Bool :=
  match t.impl_ with
  | none => false
  | some im => decide (id < im.vocab_size) && (im.flags.getD id {}).special

def vocab_size : Nat :=
  match t.impl_ with
  | none => 0
  | some im => im.vocab_size

end Tokenizer

end CachedMoe.Text
