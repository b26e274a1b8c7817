import CachedMoe.Core.JsonParse
import CachedMoe.Text.Load

/-! # The manifest

    `Manifest::parse` and `Manifest::validate` of `model/manifest.cpp`: the address book of the
    checkpoint's shards, and the checks that its reads stay inside them. 64-bit sums wrap as they
    do in C++; so do the casts of signed fields.

    `tensors_` keeps the order of the document, which is not that of the source's hash map; only
    the order of the lines in the message of `validate` depends on it. -/

namespace CachedMoe.Model

open CachedMoe Text

def kExpertBytes : Nat := 18800640
def kEngramValueRowBytes : Nat := 256
def kEngramScaleRowBytes : Nat := 8

/-! ### Machine arithmetic -/

/-- `uint64_t(x)`. -/
def to_uint64 (x : Int) : Nat := (x % 2 ^ 64).toNat

/-- Subtraction of two `uint64_t`. -/
def sub64 (a b : Nat) : Nat := (a + (2 ^ 64 - b)) % 2 ^ 64

/-- Multiplication of two `uint64_t`. -/
def mul64 (a b : Nat) : Nat := a * b % 2 ^ 64

def align_up (v : Nat) : Nat := add64 v (kPageSize - 1) / kPageSize * kPageSize

def align_down (v : Nat) : Nat := v / kPageSize * kPageSize

/-! ### Tables -/

inductive QuantType where
  | Fp4E2M1 | Fp8E4M3 | E8M0 | Bf16 | Fp32 | Fp16 | Unknown
  deriving Repr, DecidableEq

def quant_from_string (s : Bytes) : QuantType :=
  if s = utf8 "fp4_e2m1" ∨ s = utf8 "fp4" ∨ s = utf8 "e2m1" then .Fp4E2M1
  else if s = utf8 "fp8_e4m3" ∨ s = utf8 "fp8" ∨ s = utf8 "e4m3" then .Fp8E4M3
  else if s = utf8 "e8m0" ∨ s = utf8 "ue8m0" then .E8M0
  else if s = utf8 "bf16" ∨ s = utf8 "bfloat16" then .Bf16
  else if s = utf8 "f32" ∨ s = utf8 "float32" ∨ s = utf8 "fp32" then .Fp32
  else if s = utf8 "f16" ∨ s = utf8 "float16" ∨ s = utf8 "fp16" then .Fp16
  else .Unknown

def expert_part_name : ExpertPart → String
  | .W1Weight => "w1.weight"
  | .W1Scale => "w1.scale"
  | .W2Weight => "w2.weight"
  | .W2Scale => "w2.scale"
  | .W3Weight => "w3.weight"
  | .W3Scale => "w3.scale"

def expert_part_from_string (s : Bytes) : Option ExpertPart :=
  ExpertPart.all.find? fun p => s = utf8 (expert_part_name p)

structure FileEntry where
  path : Bytes
  bytes : Nat := 0
  data_start : Nat := 0
  sha256 : Bytes := []

structure ScaleEntry where
  file : Nat := 0
  offset : Nat := 0
  bytes : Nat := 0
  dtype : QuantType := .Unknown
  shape : List Nat := []
  block_m : Nat := 0
  block_k : Nat := 0

def ScaleEntry.present (s : ScaleEntry) : Bool := s.bytes != 0

structure TensorEntry where
  name : Bytes
  file : Nat := 0
  offset : Nat := 0
  bytes : Nat := 0
  dtype : QuantType := .Unknown
  shape : List Nat := []
  scale : ScaleEntry := {}

structure RunPart where
  part : ExpertPart
  skew : Nat := 0
  bytes : Nat := 0
  slot_offset : Nat := 0
  deriving Repr, DecidableEq

structure Run where
  file : Nat := 0
  aligned_off : Nat := 0
  aligned_bytes : Nat := 0
  slot_offset : Nat := 0
  parts : List RunPart := []
  deriving Repr, DecidableEq

structure ExpertEntry where
  runs : List Run := []
  slot_bytes : Nat := 0
  part_offset : ExpertPart → Nat := fun _ => 0
  part_bytes : ExpertPart → Nat := fun _ => 0

structure EngramPlane where
  file : Nat := 0
  offset : Nat := 0
  bytes : Nat := 0
  row_bytes : Nat := 0
  dtype : QuantType := .Unknown

structure EngramEntry where
  layer : Nat := 0
  rows : Nat := 0
  value : EngramPlane := {}
  scale : EngramPlane := {}

structure Manifest where
  version : Nat := 0
  model : Bytes := []
  alignment : Nat := 0
  expert_slot_bytes : Nat := 0
  files : List FileEntry := []
  tensors : List (Bytes × TensorEntry) := []
  experts : List (List ExpertEntry) := []
  engram : List EngramEntry := []

structure AlignedRead where
  file : Nat
  aligned_off : Nat
  aligned_bytes : Nat
  skew : Nat
  bytes : Nat

def align_read (file off bytes : Nat) : AlignedRead :=
  { file
    aligned_off := align_down off
    aligned_bytes := sub64 (align_up (add64 off bytes)) (align_down off)
    skew := (off - align_down off) % 2 ^ 32
    bytes }

/-! ### Parsing -/

def shape_of (n : JsonValue) (key : Bytes) : Result (List Nat) :=
  match n.find key with
  | none => .ok []
  | some v =>
    match v.as_array with
    | .error _ => fail .Corrupt s!"'{text key}' is not an array"
    | .ok a =>
      match a.mapM JsonValue.as_uint with
      | .error _ => fail .Corrupt s!"'{text key}' has a non-integer dimension"
      | .ok out => .ok out

def parse_scale (t : JsonValue) : Result ScaleEntry :=
  match t.find (utf8 "scale") with
  | none => .ok {}
  | some n =>
    if n.is_null then .ok {}
    else
      match n with
      | .object _ => do
        let offset ← n.uint_at (utf8 "offset")
        let bytes ← n.uint_at (utf8 "bytes")
        let shape ← shape_of n (utf8 "shape")
        let block := match n.int_array_at (utf8 "block") with
          | .ok [m, k] => (to_uint32 m, to_uint32 k)
          | _ => (0, 0)
        pure
          { file := to_uint32 (n.int_or (utf8 "file") 0)
            offset
            bytes
            dtype := quant_from_string (n.string_or (utf8 "dtype") (utf8 "e8m0"))
            shape
            block_m := block.1
            block_k := block.2 }
      | _ => fail .Corrupt "'scale' is not an object"

/-- A part of a run at `slot_offset`. -/
def parse_part (slot_offset : Nat) (pv : JsonValue) : Result RunPart := do
  let name ← pv.string_at (utf8 "tensor")
  match expert_part_from_string name with
  | none => fail .Corrupt s!"unknown expert part '{text name}'"
  | some part =>
    let skew := to_uint32 (pv.int_or (utf8 "skew") 0)
    -- the default is the sum, cast to `int64_t` and back
    let dflt := add64 slot_offset skew
    pure
      { part
        skew
        bytes := to_uint64 (pv.int_or (utf8 "bytes") 0)
        slot_offset := to_uint64 (pv.int_or (utf8 "slot_offset") dflt) }

def parse_run (v : JsonValue) : Result Run :=
  match v with
  | .object _ => do
    let aligned_off ← v.uint_at (utf8 "aligned_off")
    let aligned_bytes ← v.uint_at (utf8 "aligned_bytes")
    let slot_offset := to_uint64 (v.int_or (utf8 "slot_offset") 0)
    match v.find (utf8 "parts") with
    | none => fail .Corrupt "a run has no 'parts'"
    | some parts =>
      match parts.as_array with
      | .error _ => fail .Corrupt "'parts' is not an array"
      | .ok arr => do
        let parts ← arr.mapM (parse_part slot_offset)
        pure { file := to_uint32 (v.int_or (utf8 "file") 0), aligned_off, aligned_bytes, slot_offset, parts }
  | _ => fail .Corrupt "a run is not an object"

def parse_file (v : JsonValue) : Result FileEntry :=
  let path := v.string_or (utf8 "path") []
  if path = [] then fail .Corrupt "a 'files' entry has no path"
  else .ok
    { path
      bytes := to_uint64 (v.int_or (utf8 "bytes") 0)
      data_start := to_uint64 (v.int_or (utf8 "data_start") 0)
      sha256 := v.string_or (utf8 "sha256") [] }

def parse_files (doc : JsonValue) : Result (List FileEntry) := do
  let files ← match doc.find (utf8 "files") with
    | none => pure []
    | some fp =>
      match fp.as_array with
      | .error _ => fail .Corrupt "'files' is not an array"
      | .ok arr => arr.mapM parse_file
  if files = [] then fail .Corrupt "manifest has no 'files' section"
  else pure files

/-- An error of tensor `name`. -/
def of_tensor {α : Type} (name : Bytes) : Result α → Result α
  | .ok a => .ok a
  | .error e => fail .Corrupt s!"tensor '{text name}': {e.message}"

def parse_tensor (entry : Bytes × JsonValue) : Result (Bytes × TensorEntry) := do
  let (name, v) := entry
  let offset ← of_tensor name (v.uint_at (utf8 "offset"))
  let bytes ← of_tensor name (v.uint_at (utf8 "bytes"))
  let shape ← of_tensor name (shape_of v (utf8 "shape"))
  let scale ← of_tensor name (parse_scale v)
  pure (name,
    { name
      file := to_uint32 (v.int_or (utf8 "file") 0)
      offset
      bytes
      dtype := quant_from_string (v.string_or (utf8 "dtype") (utf8 "unknown"))
      shape
      scale })

/-- In the order of the document; the source walks a `std::map`, so that of two bad tensors it
    reports the one whose name comes first. -/
def parse_tensors (doc : JsonValue) : Result (List (Bytes × TensorEntry)) :=
  match doc.find (utf8 "tensors") with
  | none => fail .Corrupt "manifest has no 'tensors' section"
  | some tp =>
    match tp.as_object with
    | .error _ => fail .Corrupt "'tensors' is not an object"
    | .ok obj => obj.mapM parse_tensor

/-- A run, added to its expert. -/
def add_run (e : ExpertEntry) (r : Run) : ExpertEntry :=
  { runs := e.runs ++ [r]
    slot_bytes := add64 e.slot_bytes r.aligned_bytes
    part_offset := r.parts.foldl (fun f p => Function.update f p.part p.slot_offset) e.part_offset
    part_bytes := r.parts.foldl (fun f p => Function.update f p.part p.bytes) e.part_bytes }

def parse_expert (layer index : Nat) (xv : JsonValue) : Result ExpertEntry :=
  match xv.as_array with
  | .error _ => fail .Corrupt s!"expert layer {layer}: an expert is not a list of runs"
  | .ok runs =>
    match runs.mapM parse_run with
    | .error e => fail .Corrupt s!"expert layer {layer}, expert {index}: {e.message}"
    | .ok rs => .ok (rs.foldl add_run {})

/-- The experts of a layer; `index` is the size of the row so far. -/
def parse_row (layer : Nat) : (index : Nat) → List JsonValue → Result (List ExpertEntry)
  | _, [] => .ok []
  | index, xv :: xvs => do
    let e ← parse_expert layer index xv
    let es ← parse_row layer (index + 1) xvs
    pure (e :: es)

/-- `experts_[layer] = row`, in a table grown to `layer + 1`. -/
def put_row (experts : List (List ExpertEntry)) (layer : Nat) (row : List ExpertEntry) :
    List (List ExpertEntry) :=
  (experts ++ List.replicate (layer + 1 - experts.length) []).set layer row

/-- At layer `UINT32_MAX` the table is resized to 0 and written past its end. -/
def parse_layer (experts : List (List ExpertEntry)) (lv : JsonValue) : Load (List (List ExpertEntry)) :=
  let layer := to_uint32 (lv.int_or (utf8 "layer") 0)
  match lv.find (utf8 "experts") with
  | none => Load.fail .Corrupt s!"expert layer {layer} has no 'experts'"
  | some ev =>
    match ev.as_array with
    | .error _ => Load.fail .Corrupt s!"expert layer {layer}: not an array"
    | .ok earr =>
      if layer + 1 = 2 ^ 32 then .error .undefined
      else
        match parse_row layer 0 earr with
        | .error e => .error (.failed e)
        | .ok row => .ok (put_row experts layer row)

def parse_experts (doc : JsonValue) : Load (List (List ExpertEntry)) :=
  match doc.find (utf8 "experts") with
  | none => .ok []
  | some ep =>
    match ep.as_array with
    | .error _ => Load.fail .Corrupt "'experts' is not an array"
    | .ok arr => arr.foldlM parse_layer []

def parse_plane : Option JsonValue → EngramPlane
  | none => {}
  | some v =>
    { file := to_uint32 (v.int_or (utf8 "file") 0)
      offset := to_uint64 (v.int_or (utf8 "offset") 0)
      bytes := to_uint64 (v.int_or (utf8 "bytes") 0)
      row_bytes := to_uint32 (v.int_or (utf8 "row_bytes") 0)
      dtype := quant_from_string (v.string_or (utf8 "dtype") (utf8 "unknown")) }

def parse_engram_entry (v : JsonValue) : EngramEntry :=
  { layer := to_uint32 (v.int_or (utf8 "layer") 0)
    rows := to_uint64 (v.int_or (utf8 "rows") 0)
    value := parse_plane (v.find (utf8 "value"))
    scale := parse_plane (v.find (utf8 "scale")) }

def parse_engram (doc : JsonValue) : Result (List EngramEntry) :=
  match doc.find (utf8 "engram") with
  | none => .ok []
  | some g =>
    match g.as_array with
    | .error _ => fail .Corrupt "'engram' is not an array"
    | .ok arr => .ok (arr.map parse_engram_entry)

namespace Manifest

/-- `parse` on the document. -/
def of_json (doc : JsonValue) : Load Manifest :=
  match doc with
  | .object _ =>
    let version := to_uint32 (doc.int_or (utf8 "version") 0)
    if version ≠ 2 then
      Load.fail .Corrupt (s!"manifest version {version} is not supported (expected 2; " ++
        "re-run tools/manifest.py)")
    else do
      let files ← Load.of (parse_files doc)
      let tensors ← Load.of (parse_tensors doc)
      let experts ← parse_experts doc
      let engram ← Load.of (parse_engram doc)
      pure
        { version
          model := doc.string_or (utf8 "model") []
          alignment := to_uint32 (doc.int_or (utf8 "alignment") kPageSize)
          expert_slot_bytes := to_uint64 (doc.int_or (utf8 "expert_slot_bytes") 0)
          files
          tensors
          experts
          engram }
  | _ => Load.fail .Corrupt "manifest root is not an object"

def parse (strtod : Bytes → Double) (json_text : Bytes) : Load Manifest := do
  let doc ← Load.of (json_parse strtod json_text)
  of_json doc

end Manifest

end CachedMoe.Model
