import CachedMoe.Core.Types
import CachedMoe.Framework.Table

/-! # The JSON document

    `JsonValue` of `core/json.h` and its accessors: what a component that loads a file sees of it.
    The parser that builds the document is not part of this module. -/

namespace CachedMoe

/-- A number: its text, and what `num_` gives the integer accessors when the text is no integer
    literal (`none` outside the range they take). -/
structure JsonNumber where
  raw : Bytes
  as_int64 : Option Int
  as_uint64 : Option Nat
  deriving Repr, DecidableEq

/-- An object is a `std::map`: the parser leaves one entry for each key. -/
inductive JsonValue where
  | null
  | bool (b : Bool)
  | number (n : JsonNumber)
  | string (s : Bytes)
  | array (a : List JsonValue)
  | object (o : List (Bytes × JsonValue))

abbrev JsonArray := List JsonValue

abbrev JsonObject := Table Bytes JsonValue

/-! ### Integer literals -/

def digits_value (s : Bytes) : Nat := s.foldl (fun n b => 10 * n + (b.toNat - 48)) 0

def is_digit (b : UInt8) : Bool := decide (48 ≤ b.toNat ∧ b.toNat ≤ 57)

/-- `std::from_chars` into a `uint64_t`, when it takes the whole text. -/
def from_chars_uint (s : Bytes) : Option Nat :=
  if s ≠ [] ∧ s.all is_digit = true ∧ digits_value s < 2 ^ 64 then some (digits_value s) else none

/-- `std::from_chars` into an `int64_t`, when it takes the whole text. -/
def from_chars_int (s : Bytes) : Option Int :=
  match s with
  | 45 :: t =>
    if t ≠ [] ∧ t.all is_digit = true ∧ digits_value t ≤ 2 ^ 63 then some (-(digits_value t : Int))
    else none
  | _ =>
    if s ≠ [] ∧ s.all is_digit = true ∧ digits_value s < 2 ^ 63 then some (digits_value s) else none

/-- `if (b != e && *b == '+') ++b;` -/
def skip_plus : Bytes → Bytes
  | 43 :: s => s
  | s => s

namespace JsonValue

/-! ### Typed accessors -/

def is_null : JsonValue → Bool
  | null => true
  | _ => false

def as_bool : JsonValue → Result Bool
  | bool b => .ok b
  | _ => fail .Corrupt "expected bool"

def as_int : JsonValue → Result Int
  | number n =>
    match from_chars_int (skip_plus n.raw) with
    | some i => .ok i
    | none =>
      match n.as_int64 with
      | some i => .ok i
      | none => fail .Corrupt "integer out of range"
  | _ => fail .Corrupt "expected number"

def as_uint : JsonValue → Result Nat
  | number n =>
    match from_chars_uint (skip_plus n.raw) with
    | some i => .ok i
    | none =>
      match n.as_uint64 with
      | some i => .ok i
      | none => fail .Corrupt "unsigned out of range"
  | _ => fail .Corrupt "expected number"

def as_string : JsonValue → Result Bytes
  | string s => .ok s
  | _ => fail .Corrupt "expected string"

def as_array : JsonValue → Result JsonArray
  | array a => .ok a
  | _ => fail .Corrupt "expected array"

def as_object : JsonValue → Result JsonObject
  | object o => .ok o
  | _ => fail .Corrupt "expected object"

/-! ### Object lookup -/

def find (v : JsonValue) (key : Bytes) : Option JsonValue :=
  match v with
  | object o => Table.find o key
  | _ => none

/-- `at(key)`. -/
def at_key (v : JsonValue) (key : Bytes) : Result JsonValue :=
  match v.find key with
  | some w => .ok w
  | none => fail .NotFound s!"missing key '{text key}'"

/-- The shape the `_at` readers share. -/
def value_at {α : Type} (read : JsonValue → Result α) (v : JsonValue) (key : Bytes) : Result α :=
  match v.at_key key with
  | .error e => .error e
  | .ok w =>
    match read w with
    | .ok a => .ok a
    | .error e => fail .Corrupt s!"key '{text key}': {e.message}"

def uint_at (v : JsonValue) (key : Bytes) : Result Nat := value_at as_uint v key

def string_at (v : JsonValue) (key : Bytes) : Result Bytes := value_at as_string v key

def int_array_at (v : JsonValue) (key : Bytes) : Result (List Int) :=
  match v.at_key key with
  | .error e => .error e
  | .ok w =>
    match w.as_array with
    | .error _ => fail .Corrupt s!"key '{text key}': expected array"
    | .ok a =>
      match a.mapM as_int with
      | .error _ => fail .Corrupt s!"key '{text key}': non-integer element"
      | .ok is => .ok is

/-- The shape the `_or` readers share: `dflt` when the key is absent, null or of another type. -/
def value_or {α : Type} (read : JsonValue → Result α) (v : JsonValue) (key : Bytes) (dflt : α) : α :=
  match v.find key with
  | none => dflt
  | some w =>
    if w.is_null then dflt
    else
      match read w with
      | .ok a => a
      | .error _ => dflt

def int_or (v : JsonValue) (key : Bytes) (dflt : Int) : Int := value_or as_int v key dflt

def bool_or (v : JsonValue) (key : Bytes) (dflt : Bool) : Bool := value_or as_bool v key dflt

def string_or (v : JsonValue) (key : Bytes) (dflt : Bytes) : Bytes := value_or as_string v key dflt

/-- The number of elements of an array or an object, else 0. -/
def size : JsonValue → Nat
  | array a => a.length
  | object o => o.length
  | _ => 0

end JsonValue

end CachedMoe
