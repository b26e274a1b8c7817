import CachedMoe.Core.Json
import CachedMoe.Text.Utf8
import Mathlib.Data.Rat.Defs

/-! # The JSON parser

    `Parser` and `json_parse` of `core/json.cpp`, and `json_quote` of `core/json_write.h`. The
    parser holds what is left of the text, how far it is, and how many containers are open; an
    error ends it, with its position in the message.

    The C++ functions call each other as deep and as often as the text has it, so they take fuel
    here; `json_parse` gives them two calls for each byte of its text. -/

namespace CachedMoe

open Text

/-! ### Numbers -/

/-- What `strtod` returns. -/
inductive Double where
  | finite (q : ℚ)
  | infinite (negative : Bool)
  deriving DecidableEq

namespace Double

/-- `as_int` on a number that is no integer literal: the double, rounded towards zero. -/
def as_int64 : Double → Option Int
  | finite q => if q < -9220000000000000000 ∨ 9220000000000000000 < q then none else some (q.num.tdiv q.den)
  | infinite _ => none

/-- `as_uint` on a number that is no integer literal. -/
def as_uint64 : Double → Option Nat
  | finite q => if q < 0 ∨ 18000000000000000000 < q then none else some (q.num.toNat / q.den)
  | infinite _ => none

end Double

/-- `make_number(d, raw)`. -/
def JsonNumber.make (d : Double) (raw : Bytes) : JsonNumber :=
  { raw, as_int64 := d.as_int64, as_uint64 := d.as_uint64 }

/-! ### Characters -/

namespace Json

def kMaxDepth : Nat := 64

def is_ws (c : UInt8) : Bool := c == 32 || c == 9 || c == 10 || c == 13

def quote : UInt8 := 34
def backslash : UInt8 := 92

/-- The character after a backslash, but for `u`. -/
def simple_escape (e : UInt8) : Option UInt8 :=
  if e = 34 then some 34
  else if e = 92 then some 92
  else if e = 47 then some 47
  else if e = 98 then some 8
  else if e = 102 then some 12
  else if e = 110 then some 10
  else if e = 114 then some 13
  else if e = 116 then some 9
  else none

def hex_digit (c : UInt8) : Option Nat :=
  if 48 ≤ c.toNat ∧ c.toNat ≤ 57 then some (c.toNat - 48)
  else if 97 ≤ c.toNat ∧ c.toNat ≤ 102 then some (c.toNat - 97 + 10)
  else if 65 ≤ c.toNat ∧ c.toNat ≤ 70 then some (c.toNat - 65 + 10)
  else none

def is_high (cp : Nat) : Bool := decide (0xD800 ≤ cp ∧ cp ≤ 0xDBFF)
def is_low (cp : Nat) : Bool := decide (0xDC00 ≤ cp ∧ cp ≤ 0xDFFF)

/-- The code point of a surrogate pair. -/
def pair (hi lo : Nat) : Nat := 0x10000 + (hi - 0xD800) <<< 10 + (lo - 0xDC00)

end Json

/-! ### The parser -/

open Json

structure Parser where
  /-- The text from `i` on. -/
  rest : Bytes
  i : Nat := 0
  depth : Nat := 0
  deriving Repr, DecidableEq

/-- `none` as an error means that the fuel is used up. -/
abbrev Parse := StateT Parser (Except (Option Status))

namespace Parser

def out_of_fuel {α : Type} : Parse α := fun _ => .error none

def err {α : Type} (what : String) : Parse α := fun p =>
  .error (some { code := .Corrupt, message := s!"{what} at byte {p.i}" })

/-- `i += n`. -/
def bump (n : Nat) : Parse Unit := fun p =>
  .ok ((), { p with rest := p.rest.drop n, i := p.i + n })

/-- The character at `i`, or the end of the text. -/
def peek : Parse (Option UInt8) := fun p => .ok (p.rest.head?, p)

/-- `s[i++]`. -/
def next : Parse (Option UInt8) := fun p =>
  match p.rest with
  | [] => .ok (none, p)
  | c :: rest => .ok (some c, { p with rest, i := p.i + 1 })

/-- The characters at `i` that meet `f`, taken off. -/
def take_while (f : UInt8 → Bool) : Parse Bytes := fun p =>
  .ok (p.rest.takeWhile f,
    { p with rest := p.rest.dropWhile f, i := p.i + (p.rest.takeWhile f).length })

def skip_ws : Parse Unit := do
  let _ ← take_while is_ws

/-- `++depth`. -/
def enter : Parse Unit := fun p => .ok ((), { p with depth := p.depth + 1 })

/-- `--depth`. -/
def leave : Parse Unit := fun p => .ok ((), { p with depth := p.depth - 1 })

/-! #### Strings -/

def hex4 : Parse Nat := fun p =>
  if p.rest.length < 4 then err "truncated \\u escape" p
  else
    match (p.rest.take 4).foldlM (fun v c => (hex_digit c).map fun d => v <<< 4 ||| d) 0 with
    | none => err "bad hex digit in \\u escape" p
    | some v => .ok (v, { p with rest := p.rest.drop 4, i := p.i + 4 })

/-- What a `\u` escape appends. A pair of surrogates is one code point; two escapes that are no
    pair are two. -/
def unicode_escape : Parse Bytes := do
  let hi ← hex4
  let p ← get
  if is_high hi ∧ p.rest.take 2 = [backslash, 117] then
    bump 2
    let lo ← hex4
    if is_low lo then pure (utf8_append (pair hi lo))
    else pure (utf8_append hi ++ utf8_append lo)
  else pure (utf8_append hi)

/-- The loop of `string_literal`. -/
def string_chars : Nat → Bytes → Parse Bytes
  | 0, _ => out_of_fuel
  | n + 1, out => do
    match ← next with
    | none => err "unterminated string"
    | some c =>
      if c = quote then pure out
      else if c ≠ backslash then
        if c.toNat < 0x20 then err "raw control char in string"
        else string_chars n (out ++ [c])
      else
        match ← next with
        | none => err "unterminated escape"
        | some e =>
          match simple_escape e with
          | some b => string_chars n (out ++ [b])
          | none =>
            if e = 117 then do
              let bytes ← unicode_escape
              string_chars n (out ++ bytes)
            else err "unknown escape"

def string_literal (n : Nat) : Parse Bytes := do
  bump 1
  string_chars n []

/-! #### Numbers -/

/-- The character at `i`, if it is one of `cs`, taken off. -/
def optional (cs : Bytes) : Parse Bytes := do
  match ← peek with
  | some c =>
    if c ∈ cs then
      bump 1
      pure [c]
    else pure []
  | none => pure []

/-- A `.` or `e` with what follows it. -/
def suffix (cs : Bytes) (more : Parse Bytes) : Parse Bytes := do
  match ← optional cs with
  | [] => pure []
  | c => do
    let s ← more
    pure (c ++ s)

def number (strtod : Bytes → Double) : Parse JsonValue := do
  let sign ← optional [45, 43]
  let int ← take_while is_digit
  let frac ← suffix [46] (take_while is_digit)
  let exp ← suffix [101, 69] do
    let sign ← optional [45, 43]
    let digits ← take_while is_digit
    pure (sign ++ digits)
  -- `any`: a digit before or after the point
  if int = [] ∧ frac.drop 1 = [] then err "expected a value"
  else
    let raw := sign ++ int ++ frac ++ exp
    pure (.number (.make (strtod raw) raw))

/-! #### Values -/

def literal (word : Bytes) (v : JsonValue) : Parse JsonValue := do
  let p ← get
  if p.rest.take word.length = word then
    bump word.length
    pure v
  else err "bad literal"

variable (strtod : Bytes → Double)

mutual

def value : Nat → Parse JsonValue
  | 0 => out_of_fuel
  | n + 1 => do
    let p ← get
    if kMaxDepth ≤ p.depth then err "nesting too deep"
    else
      skip_ws
      match ← peek with
      | none => err "unexpected end of input"
      | some c =>
        if c = 123 then do
          bump 1
          enter
          skip_ws
          if (← peek) = some 125 then do
            bump 1
            leave
            pure (.object [])
          else members n []
        else if c = 91 then do
          bump 1
          enter
          skip_ws
          if (← peek) = some 93 then do
            bump 1
            leave
            pure (.array [])
          else elements n []
        else if c = quote then do
          let s ← string_literal n
          pure (.string s)
        else if c = 116 then literal (chars ['t', 'r', 'u', 'e']) (.bool true)
        else if c = 102 then literal (chars ['f', 'a', 'l', 's', 'e']) (.bool false)
        else if c = 110 then literal (chars ['n', 'u', 'l', 'l']) .null
        else number strtod

/-- The loop of `object`. -/
def members : Nat → JsonObject → Parse JsonValue
  | 0, _ => out_of_fuel
  | n + 1, o => do
    skip_ws
    if (← peek) ≠ some quote then err "expected object key"
    else do
      let k ← string_literal n
      skip_ws
      if (← peek) ≠ some 58 then err "expected ':'"
      else do
        bump 1
        let v ← value n
        -- `insert_or_assign`
        let o := o.put k v
        skip_ws
        match ← peek with
        | none => err "unterminated object"
        | some c =>
          if c = 44 then do
            bump 1
            members n o
          else if c = 125 then do
            bump 1
            leave
            pure (.object o)
          else err "expected ',' or '\x7d'"

/-- The loop of `array`. -/
def elements : Nat → JsonArray → Parse JsonValue
  | 0, _ => out_of_fuel
  | n + 1, a => do
    let v ← value n
    let a := a ++ [v]
    skip_ws
    match ← peek with
    | none => err "unterminated array"
    | some c =>
      if c = 44 then do
        bump 1
        elements n a
      else if c = 93 then do
        bump 1
        leave
        pure (.array a)
      else err "expected ',' or ']'"

end

end Parser

/-- The byte-order mark. -/
def utf8_bom : Bytes := [0xEF, 0xBB, 0xBF]

/-- `json_parse` behind the mark. -/
def parse_document (strtod : Bytes → Double) (text : Bytes) : Except (Option Status) JsonValue := do
  let (v, p) ← Parser.value strtod (2 * text.length + 2) { rest := text }
  let (_, p) ← Parser.skip_ws p
  if p.rest = [] then pure v
  else throw (some { code := .Corrupt, message := s!"trailing content at byte {p.i}" })

/-- The last case is that of the fuel; no text of the grammar comes to it. -/
def json_parse (strtod : Bytes → Double) (text : Bytes) : Result JsonValue :=
  let text := if utf8_bom <+: text then text.drop 3 else text
  match parse_document strtod text with
  | .ok v => .ok v
  | .error (some e) => .error e
  | .error none => fail .Internal ""

/-! ### The writer -/

/-- The digits of `%04x`. -/
def hex_char (d : Nat) : UInt8 := UInt8.ofNat (if d < 10 then 48 + d else 87 + d)

def quote_char (c : UInt8) : Bytes :=
  if c = 34 then [92, 34]
  else if c = 92 then [92, 92]
  else if c = 10 then [92, 110]
  else if c = 13 then [92, 114]
  else if c = 9 then [92, 116]
  else if c = 8 then [92, 98]
  else if c = 12 then [92, 102]
  else if c.toNat < 0x20 then
    [92, 117, 48, 48, hex_char (c.toNat / 16), hex_char (c.toNat % 16)]
  else [c]

/-- `s` as a quoted JSON string. -/
def json_quote (s : Bytes) : Bytes := [quote] ++ s.flatMap quote_char ++ [quote]

end CachedMoe
