import CachedMoe.Text.Tokenizer

/-! # Loading a tokenizer

    `Tokenizer::load` of `text/tokenizer.cpp` on the parsed `tokenizer.json`: the checks that
    the file asks for nothing the tokenizer does not implement, then the vocabulary, the added
    tokens with their tries, the byte table and the merges. -/

namespace CachedMoe.Text

/-- How `load` ends without a tokenizer: with a `Status`, or at a step C++ gives no meaning (a
    null pointer or an empty `Result` dereferenced, a write past the end of a vector). -/
inductive LoadEnd where
  | failed (status : Status)
  | undefined
  deriving Repr, DecidableEq

abbrev Load (α : Type) := Except LoadEnd α

def Load.fail {α : Type} (code : Err) (message : String) : Load α :=
  .error (.failed { code, message })

/-- `if (!r) return std::unexpected(r.error())`. -/
def Load.of {α : Type} : Result α → Load α
  | .ok a => .ok a
  | .error status => .error (.failed status)

/-- A string literal. -/
def utf8 (s : String) : Bytes := s.toByteArray.data.toList

/-- `uint32_t(x)`. -/
def to_uint32 (x : Int) : Nat := (x % 2 ^ 32).toNat

/-! ### Checks -/

def kWant : List Bytes :=
  [utf8 "\\p\x7bN\x7d\x7b1,3\x7d",
    utf8 "[一-龥぀-ゟ゠-ヿ]+",
    utf8 ("[!\"#$%&'()*+,\\-./:;<=>?@\\[\\\\\\]^_`\x7b|\x7d~][A-Za-z]+" ++
      "|[^\r\n\\p\x7bL\x7d\\p\x7bP\x7d\\p\x7bS\x7d]?[\\p\x7bL\x7d\\p\x7bM\x7d]+" ++
      "| ?[\\p\x7bP\x7d\\p\x7bS\x7d]+[\r\n]*|\\s*[\r\n]+|\\s+(?!\\S)|\\s+")]

def check_model (path : Bytes) (doc : JsonValue) : Load JsonValue :=
  match doc.find (utf8 "model") with
  | none => Load.fail .Corrupt s!"{text path}: model.type is not BPE"
  | some model =>
    if model.string_or (utf8 "type") [] ≠ utf8 "BPE" then
      Load.fail .Corrupt s!"{text path}: model.type is not BPE"
    else
      let refused := Load.fail .Unimplemented
        (s!"{text path}: byte_fallback / ignore_merges / dropout are not implemented")
      if model.bool_or (utf8 "byte_fallback") false || model.bool_or (utf8 "ignore_merges") false
      then refused
      else
        match model.find (utf8 "dropout") with
        | none => .error .undefined
        | some dropout => if dropout.is_null then .ok model else refused

/-- Whether `pretokenizers[i]` is the split the tokenizer hand-compiles. -/
def split_ok (s : JsonValue) (want : Bytes) : Bool :=
  let rx := match s.find (utf8 "pattern") with
    | some pat => pat.string_or (utf8 "Regex") []
    | none => []
  s.string_or (utf8 "type") [] = utf8 "Split" &&
    s.string_or (utf8 "behavior") [] = utf8 "Isolated" &&
    !s.bool_or (utf8 "invert") false && rx = want

def check_splits (path : Bytes) : (i : Nat) → List JsonValue → List Bytes → Load Unit
  | i, s :: ss, want :: wants =>
    if split_ok s want then check_splits path (i + 1) ss wants
    else
      Load.fail .Unimplemented
        (s!"{text path}: pre_tokenizer {i} is not the one this tokenizer " ++ "hand-compiles")
  | _, _, _ => .ok ()

def check_pre_tokenizer (path : Bytes) (doc : JsonValue) : Load Unit :=
  let unexpected := Load.fail .Corrupt s!"{text path}: unexpected pre_tokenizer"
  let seq := (doc.find (utf8 "pre_tokenizer")).bind fun pt => pt.find (utf8 "pretokenizers")
  match seq with
  | none => unexpected
  | some seq =>
    match seq.as_array with
    | .error _ => unexpected
    | .ok arr =>
      if arr.length ≠ 4 then unexpected
      else
        match check_splits path 0 arr kWant with
        | .error e => .error e
        | .ok () =>
          let level := arr.getD 3 .null
          if level.string_or (utf8 "type") [] ≠ utf8 "ByteLevel" ||
              level.bool_or (utf8 "use_regex") true ||
              level.bool_or (utf8 "add_prefix_space") true then
            Load.fail .Unimplemented s!"{text path}: unexpected ByteLevel step"
          else .ok ()

def check_normalizer (path : Bytes) (doc : JsonValue) : Load Unit :=
  match doc.find (utf8 "normalizer") with
  | none => .ok ()
  | some norm =>
    if norm.is_null then .ok ()
    else
      let empty := match norm.find (utf8 "normalizers") with
        | some ns => decide (ns.size = 0)
        | none => false
      if norm.string_or (utf8 "type") [] = utf8 "Sequence" && empty then .ok ()
      else Load.fail .Unimplemented s!"{text path}: a normalizer is set"

/-! ### Vocabulary -/

/-- The loop over the vocabulary object: the table and the largest id. -/
def read_vocab : (entries : List (Bytes × JsonValue)) → (vocab : Table Bytes Nat) → (max_id : Nat) →
    Load (Table Bytes Nat × Nat)
  | [], vocab, max_id => .ok (vocab, max_id)
  | (k, v) :: entries, vocab, max_id =>
    match v.as_uint with
    | .error status => .error (.failed status)
    | .ok id => read_vocab entries (vocab.emplace k (id % 2 ^ 32)) (max max_id (id % 2 ^ 32))

/-- The id an added token has. -/
def added_id (a : JsonValue) : Nat := to_uint32 (a.int_or (utf8 "id") 0)

def added_content (a : JsonValue) : Bytes := a.string_or (utf8 "content") []

/-- `str` and `flags` while they are filled; a write past their end is undefined. -/
structure Strings where
  str : List Bytes
  flags : List Flags
  deriving Repr, DecidableEq

def Strings.write (s : Strings) (id : Nat) (k : Bytes) (mark : Flags → Flags) : Load Strings :=
  if id < s.str.length then
    .ok { str := s.str.set id k, flags := s.flags.set id (mark (s.flags.getD id {})) }
  else .error .undefined

def write_vocab : List (Bytes × Nat) → Strings → Load Strings
  | [], s => .ok s
  | (k, id) :: entries, s => do
    let s ← s.write id k fun f => { f with present := true }
    write_vocab entries s

/-! ### Added tokens -/

structure AddedTokens where
  strings : Strings
  added : Table Bytes Nat := []
  raw_trie : Trie := {}
  norm_trie : Trie := {}

def add_token (st : AddedTokens) (a : JsonValue) : Load AddedTokens :=
  let id := added_id a
  let content := added_content a
  if content = [] then Load.fail .Corrupt "an added token has no content"
  else if a.bool_or (utf8 "lstrip") false || a.bool_or (utf8 "rstrip") false ||
      a.bool_or (utf8 "single_word") false then
    Load.fail .Unimplemented
      s!"added token '{text content}' uses lstrip/rstrip/single_word"
  else do
    let special := a.bool_or (utf8 "special") false
    let strings ← st.strings.write id content fun f =>
      { present := true, added := true, special := f.special || special }
    let normalized := a.bool_or (utf8 "normalized") false
    .ok {
      strings
      added := st.added.put content id
      raw_trie := if normalized then st.raw_trie else st.raw_trie.insert content id
      norm_trie := if normalized then st.norm_trie.insert content id else st.norm_trie }

def add_tokens : List JsonValue → AddedTokens → Load AddedTokens
  | [], st => .ok st
  | a :: as, st => do
    let st ← add_token st a
    add_tokens as st

/-! ### Bytes of the tokens -/

/-- `bytes`: filled for the ids that have a token. -/
def fill_bytes (s : Strings) : List Bytes :=
  s.str.zipWith (fun str f => if f.present then bytes_of_token_string str else []) s.flags

theorem fill_bytes_absent (s : Strings) (id : Nat) (h : (s.flags.getD id {}).present = false) :
    (fill_bytes s).getD id [] = [] := by
  unfold fill_bytes
  rw [List.getD_eq_getElem?_getD, List.getElem?_zipWith]
  cases hstr : s.str[id]? with
  | none => rfl
  | some str =>
    cases hflags : s.flags[id]? with
    | none => rfl
    | some f =>
      rw [List.getD_eq_getElem?_getD, hflags, Option.getD_some] at h
      simp [h]

/-- The loop over the 256 bytes, from byte `b` on. -/
def read_byte_ids (vocab : Table Bytes Nat) : List Nat → Load (List Nat)
  | [] => .ok []
  | b :: bs =>
    match vocab.find (utf8_append (to_char b)) with
    | none => Load.fail .Corrupt s!"byte {b} has no vocabulary token"
    | some id => do
      let ids ← read_byte_ids vocab bs
      .ok (id :: ids)

/-! ### Merges -/

/-- The two tokens one entry of `merges` names: `"a b"`, or `["a", "b"]`. -/
def merge_pair (rank : Nat) (m : JsonValue) : Load (Bytes × Bytes) :=
  match m with
  | .string s =>
    let a := s.takeWhile fun c => c ≠ 0x20
    let b := s.drop (a.length + 1)
    if a.length = s.length ∨ 0x20 ∈ b then Load.fail .Corrupt s!"merge {rank} is not 'a b'"
    else .ok (a, b)
  | .array [a, b] =>
    match a, b with
    | .string a, .string b => .ok (a, b)
    | _, _ => .error .undefined
  | _ => Load.fail .Corrupt s!"merge {rank} has an unknown form"

def read_merges (vocab : Table Bytes Nat) : (rank : Nat) → List JsonValue →
    Table (Nat × Nat) (Nat × Nat) → Load (Table (Nat × Nat) (Nat × Nat))
  | _, [], merges => .ok merges
  | rank, m :: ms, merges => do
    let (a, b) ← merge_pair rank m
    match vocab.find a, vocab.find b, vocab.find (a ++ b) with
    | some ia, some ib, some id =>
      read_merges vocab ((rank + 1) % 2 ^ 32) ms (merges.emplace (ia, ib) (rank, id))
    | _, _, _ =>
      Load.fail .Corrupt s!"merge {rank} refers to a token outside the vocabulary"

/-! ### Load -/

/-- `Tokenizer::load(path)`, where `doc` is what `json_parse_file(path)` returned. -/
def load_impl (path : Bytes) (doc : JsonValue) : Load Impl := do
  let model ← check_model path doc
  check_pre_tokenizer path doc
  check_normalizer path doc
  let vobj ← Load.of ((model.at_key (utf8 "vocab")).bind JsonValue.as_object)
  let (vocab, max_id) ← read_vocab vobj [] 0
  let aarr ← Load.of ((doc.at_key (utf8 "added_tokens")).bind JsonValue.as_array)
  let max_id := aarr.foldl (fun m a => max m (added_id a)) max_id
  let vocab_size := (max_id + 1) % 2 ^ 32
  let strings ← write_vocab vocab
    { str := List.replicate vocab_size [], flags := List.replicate vocab_size {} }
  let st ← add_tokens aarr { strings }
  let byte_id ← read_byte_ids vocab (List.range 256)
  let marr ← Load.of ((model.at_key (utf8 "merges")).bind JsonValue.as_array)
  let merges ← read_merges vocab 0 marr []
  .ok {
    vocab_size
    str := st.strings.str
    bytes := fill_bytes st.strings
    flags := st.strings.flags
    vocab
    added := st.added
    merges
    byte_id
    raw_trie := st.raw_trie
    norm_trie := st.norm_trie
    absent := fill_bytes_absent st.strings }

def Tokenizer.load (path : Bytes) (doc : Result JsonValue) : Load Tokenizer := do
  let doc ← Load.of doc
  let im ← load_impl path doc
  .ok { impl_ := some im }

end CachedMoe.Text
