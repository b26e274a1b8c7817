import CachedMoe.Core.JsonParse

/-! # JSON texts

    RFC 8259: its grammar, as the trees of its rules, and the value a text denotes. A tree is
    rendered to the UTF-8 of its text, and a text is what some tree is rendered to. Nothing here
    is taken from the parser. -/

namespace CachedMoe.JsonText

open CachedMoe Json

/-! ### Tokens -/

/-- `ws`. -/
structure Ws where
  s : Bytes
  all_ws : s.all is_ws = true

/-- The escapes of two characters. -/
inductive Escape where
  | quotation_mark | reverse_solidus | solidus | backspace | form_feed | line_feed
  | carriage_return | tab
  deriving DecidableEq

namespace Escape

def char : Escape → UInt8
  | quotation_mark => 34
  | reverse_solidus => 92
  | solidus => 47
  | backspace => 98
  | form_feed => 102
  | line_feed => 110
  | carriage_return => 114
  | tab => 116

def code : Escape → Nat
  | quotation_mark => 34
  | reverse_solidus => 92
  | solidus => 47
  | backspace => 8
  | form_feed => 12
  | line_feed => 10
  | carriage_return => 13
  | tab => 9

end Escape

/-- `HEXDIG`, in either case. -/
structure HexDigit where
  digit : Fin 16
  upper : Bool := false
  deriving DecidableEq

def HexDigit.char (h : HexDigit) : UInt8 :=
  UInt8.ofNat (if h.digit.val < 10 then 48 + h.digit.val
    else if h.upper then 55 + h.digit.val else 87 + h.digit.val)

/-- `char`: a character that needs no escape, or one of the escapes. -/
inductive StringChar where
  | unescaped (c : Char) (control : 0x20 ≤ c.toNat) (mark : c ≠ '"') (solidus : c ≠ '\\')
  | escape (e : Escape)
  | unicode (h₁ h₂ h₃ h₄ : HexDigit)

/-- `string`, without its quotation marks. -/
abbrev StringText := List StringChar

def digit_char (d : Fin 10) : UInt8 := UInt8.ofNat (48 + d.val)

/-- `int`. -/
inductive IntText where
  | zero
  | nonzero (d : Fin 9) (ds : List (Fin 10))

/-- `exp`: `sign` is true for a minus. -/
structure ExpText where
  upper : Bool
  sign : Option Bool
  first : Fin 10
  more : List (Fin 10)

/-- `number`. -/
structure NumberText where
  minus : Bool
  int : IntText
  frac : Option (Fin 10 × List (Fin 10))
  exp : Option ExpText

/-! ### Values -/

mutual

/-- `value`. -/
inductive Value where
  | null
  | bool (b : Bool)
  | number (n : NumberText)
  | string (s : StringText)
  | empty_array (w : Ws)
  | array (es : Elements)
  | empty_object (w : Ws)
  | object (ms : Members)

/-- The values of an array, with the white space around each. -/
inductive Elements where
  | last (before : Ws) (v : Value) (after : Ws)
  | more (before : Ws) (v : Value) (after : Ws) (es : Elements)

/-- The members of an object. -/
inductive Members where
  | last (before : Ws) (key : StringText) (colon colon' : Ws) (v : Value) (after : Ws)
  | more (before : Ws) (key : StringText) (colon colon' : Ws) (v : Value) (after : Ws) (ms : Members)

end

/-- `JSON-text`. -/
structure Document where
  before : Ws
  value : Value
  after : Ws

/-! ### The text -/

def StringChar.render : StringChar → Bytes
  | unescaped c _ _ _ => String.utf8EncodeChar c
  | escape e => [92, e.char]
  | unicode h₁ h₂ h₃ h₄ => [92, 117, h₁.char, h₂.char, h₃.char, h₄.char]

def StringText.render (s : StringText) : Bytes := [34] ++ s.flatMap StringChar.render ++ [34]

def digits_text (ds : List (Fin 10)) : Bytes := ds.map digit_char

def IntText.render : IntText → Bytes
  | zero => [48]
  | nonzero d ds => UInt8.ofNat (49 + d.val) :: digits_text ds

def sign_text : Option Bool → Bytes
  | none => []
  | some true => [45]
  | some false => [43]

def ExpText.render (e : ExpText) : Bytes :=
  (if e.upper then 69 else 101) :: (sign_text e.sign ++ digits_text (e.first :: e.more))

def frac_text : Option (Fin 10 × List (Fin 10)) → Bytes
  | none => []
  | some (d, ds) => 46 :: digits_text (d :: ds)

def exp_text : Option ExpText → Bytes
  | none => []
  | some e => e.render

def NumberText.render (n : NumberText) : Bytes :=
  sign_text (if n.minus then some true else none) ++ n.int.render ++ frac_text n.frac ++
    exp_text n.exp

mutual

def Value.render : Value → Bytes
  | .null => chars ['n', 'u', 'l', 'l']
  | .bool true => chars ['t', 'r', 'u', 'e']
  | .bool false => chars ['f', 'a', 'l', 's', 'e']
  | .number n => n.render
  | .string s => s.render
  | .empty_array w => [91] ++ w.s ++ [93]
  | .array es => [91] ++ es.render ++ [93]
  | .empty_object w => [123] ++ w.s ++ [125]
  | .object ms => [123] ++ ms.render ++ [125]

def Elements.render : Elements → Bytes
  | .last before v after => before.s ++ v.render ++ after.s
  | .more before v after es => before.s ++ v.render ++ after.s ++ [44] ++ es.render

def Members.render : Members → Bytes
  | .last before key colon colon' v after =>
    before.s ++ key.render ++ colon.s ++ [58] ++ colon'.s ++ v.render ++ after.s
  | .more before key colon colon' v after ms =>
    before.s ++ key.render ++ colon.s ++ [58] ++ colon'.s ++ v.render ++ after.s ++ [44] ++ ms.render

end

def Document.render (t : Document) : Bytes := t.before.s ++ t.value.render ++ t.after.s

/-! ### Nesting -/

mutual

/-- The most containers around a value. -/
def Value.nesting : Value → Nat
  | .array es => es.nesting + 1
  | .object ms => ms.nesting + 1
  | _ => 0

def Elements.nesting : Elements → Nat
  | .last _ v _ => v.nesting
  | .more _ v _ es => max v.nesting es.nesting

def Members.nesting : Members → Nat
  | .last _ _ _ _ v _ => v.nesting
  | .more _ _ _ _ v _ ms => max v.nesting ms.nesting

end

/-! ### What a text denotes -/

/-- The number that four hexadecimal digits write. -/
def hex_value (h₁ h₂ h₃ h₄ : HexDigit) : Nat :=
  h₁.digit.val * 4096 + h₂.digit.val * 256 + h₃.digit.val * 16 + h₄.digit.val

def StringChar.code : StringChar → Nat
  | unescaped c _ _ _ => c.toNat
  | escape e => e.code
  | unicode h₁ h₂ h₃ h₄ => hex_value h₁ h₂ h₃ h₄

/-- A high surrogate and a low one right after it are the code point of the pair; anything else
    is a code point of its own. `held` is a high surrogate that the next one may complete. -/
@[grind =] def join_pairs : Option Nat → List Nat → List Nat
  | none, [] => []
  | some hi, [] => [hi]
  | none, u :: s => if is_high u then join_pairs (some u) s else u :: join_pairs none s
  | some hi, u :: s =>
    if is_low u then pair hi u :: join_pairs none s
    else if is_high u then hi :: join_pairs (some u) s
    else hi :: u :: join_pairs none s

/-- The code points of a string. Only an escape can be a surrogate. -/
def code_points (s : StringText) : List Nat := join_pairs none (s.map StringChar.code)

def StringText.denote (s : StringText) : Bytes := (code_points s).flatMap Text.utf8_append

/-- Of the entries of a key the last. -/
def keep_last {α : Type} : List (Bytes × α) → Table Bytes α
  | [] => []
  | e :: es => if e.1 ∈ es.map Prod.fst then keep_last es else e :: keep_last es

section Denote

variable (str : StringText → Bytes) (strtod : Bytes → Double)

mutual

/-- The value of a text, where `str` gives that of a string. -/
def Value.eval : Value → JsonValue
  | .null => .null
  | .bool b => .bool b
  | .number n => .number (.make (strtod n.render) n.render)
  | .string s => .string (str s)
  | .empty_array _ => .array []
  | .array es => .array es.eval
  | .empty_object _ => .object []
  | .object ms => .object (keep_last ms.eval)

def Elements.eval : Elements → List JsonValue
  | .last _ v _ => [v.eval]
  | .more _ v _ es => v.eval :: es.eval

def Members.eval : Members → List (Bytes × JsonValue)
  | .last _ key _ _ v _ => [(str key, v.eval)]
  | .more _ key _ _ v _ ms => (str key, v.eval) :: ms.eval

end

/-- The value that a text denotes. -/
def Document.denote (t : Document) : JsonValue := t.value.eval StringText.denote strtod

end Denote

end CachedMoe.JsonText
