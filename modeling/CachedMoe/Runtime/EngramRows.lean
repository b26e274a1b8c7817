import CachedMoe.Framework.Region
import CachedMoe.Framework.System
import CachedMoe.Model.ManifestCheck
import CachedMoe.Runtime.EngramTables

/-! # The rows of the engram tables, fetched and landed

    `EngramRunner::fetch` puts the reads of a token's rows in flight and `land` waits for them
    and stages the rows. A row comes from the row cache, its scale also from a plane in memory,
    or else both come from the shards, in reads widened to whole sectors. Any read may fail,
    and so may its submission.

    Each plane has its own part of `staging_` and of `buf_`, here a region of its own. Counters
    and timings are left out. -/

namespace CachedMoe.Model.Manifest

open CachedMoe

/-- `EngramRowPlan` -/
structure EngramRowPlan where
  value : AlignedRead
  scale : AlignedRead

def engram_for_layer (m : Manifest) (layer : Nat) : Option EngramEntry :=
  m.engram.find? fun e => e.layer = layer

/-- The read of row `row` of a plane. -/
def plane_row (p : EngramPlane) (row : Nat) : AlignedRead :=
  align_read p.file (add64 p.offset (mul64 row p.row_bytes)) p.row_bytes

def engram_row (m : Manifest) (layer row : Nat) : Result EngramRowPlan :=
  match m.engram_for_layer layer with
  | none => fail .NotFound s!"no engram table for layer {layer}"
  | some e =>
    if row ≥ e.rows then fail .OutOfRange s!"engram row {row} >= {e.rows}"
    else .ok { value := plane_row e.value row, scale := plane_row e.scale row }

end CachedMoe.Model.Manifest

namespace CachedMoe.Runtime

open CachedMoe.Model

/-! ### The checkpoint -/

/-- A manifest that has been validated, and the shards as they are on disk. The size of a file is
    a signed 64-bit number, and its tables lie inside it. -/
structure Checkpoint where
  manifest : Manifest
  files : Nat → Nat → UInt8
  size : Nat → Nat
  validated : manifest.validate = .ok ()
  sized : ∀ file, size file < 2 ^ 63
  inside : ∀ e ∈ manifest.engram,
    e.value.offset + e.rows * kEngramValueRowBytes ≤ size e.value.file ∧
      e.scale.offset + e.rows * kEngramScaleRowBytes ≤ size e.scale.file

namespace Checkpoint

variable (cp : Checkpoint)

/-- The bytes of a row of a plane. -/
def plane_bytes (p : EngramPlane) (row_bytes row : Nat) : List UInt8 :=
  Region.read (cp.files p.file) (p.offset + row * row_bytes) row_bytes

def value_row (layer row : Nat) : List UInt8 :=
  (cp.manifest.engram_for_layer layer).elim [] fun e =>
    cp.plane_bytes e.value kEngramValueRowBytes row

def scale_row (layer row : Nat) : List UInt8 :=
  (cp.manifest.engram_for_layer layer).elim [] fun e =>
    cp.plane_bytes e.scale kEngramScaleRowBytes row

end Checkpoint

/-! ### Scale planes in memory -/

def kPiece : Nat := 8 * 2 ^ 20

/-- `ScalePlanes::by_layer` -/
abbrev ScalePlanes := Table Nat (List UInt8)

/-- The pieces of the plane of a layer, from `done` on; `answer` is what `read_at` says to a read
    at an offset: the bytes it has read, which are those of the file. -/
def scale_piece_loop (file : Nat → UInt8) (answer : Nat → Nat → Result Nat)
    (layer offset bytes : Nat) : (fuel done : Nat) → (buf : Nat → UInt8) →
    (plane : List UInt8) → Result (List UInt8)
  | 0, _, _, plane => .ok plane
  | fuel + 1, done, buf, plane =>
    if done < bytes then
      let off := add64 offset done
      let a0 := align_down off
      let want := min kPiece (bytes - done)
      let a1 := align_down (add64 off (want + kPageSize - 1))
      match answer a0 (a1 - a0) with
      | .error e => fail e.code s!"engram layer {layer} scale plane: {e.message}"
      | .ok n =>
        if n < (off - a0) + want then fail .Io s!"engram layer {layer} scale plane: short read"
        else
          let buf := Region.write buf 0 (Region.read file a0 n)
          scale_piece_loop file answer layer offset bytes fuel (done + want) buf
            (plane ++ Region.read buf (off - a0) want)
    else .ok plane

/-- `opened` is what `require` says to a file. -/
def load_scales (m : Manifest) (files : Nat → Nat → UInt8) (opened : Nat → Result Unit)
    (answer : Nat → Nat → Nat → Result Nat) : List Nat → (planes : ScalePlanes) → Result ScalePlanes
  | [], planes => .ok planes
  | layer :: layers, planes =>
    match m.engram_for_layer layer with
    | none => fail .NotFound s!"no engram table for layer {layer}"
    | some e =>
      match opened e.scale.file with
      | .error err => .error err
      | .ok _ =>
        let bytes := mul64 e.rows kEngramScaleRowBytes
        match scale_piece_loop (files e.scale.file) (answer e.scale.file) layer e.scale.offset bytes
            bytes 0 (fun _ => 0) [] with
        | .error err => .error err
        | .ok plane => load_scales m files opened answer layers (planes.emplace layer plane)

/-! ### The runner -/

def kStagingPerRead : Nat := 2 * kPageSize
def kRowCacheLimit : Nat := 8192

/-- `~0ull` -/
def kNoPosition : Nat := 2 ^ 64 - 1

abbrev RowKey := Nat × Nat

structure CachedRow where
  value : List UInt8
  scale : List UInt8
  deriving Repr, DecidableEq

/-- A read of the I/O engine; no result while it is in flight. -/
structure RowRead where
  file : Nat
  file_off : Nat
  bytes : Nat
  result : Option Status
  deriving Repr, DecidableEq

/-- An entry of `pending`; without a read behind it the bytes are in the slot already. -/
structure PendingRead where
  read : Option RowRead
  skew : Nat
  deriving Repr, DecidableEq

/-- `Planes`: `rowval` and `rowsc` are the planes in `buf_`. -/
structure Planes where
  layer : Nat
  batch_row : Nat
  fetched_position : Nat := kNoPosition
  pending : List PendingRead := []
  rows : List Nat := List.replicate kEngramRowsPerToken 0
  staging : Nat → UInt8 := fun _ => 0
  rowval : Nat → UInt8 := fun _ => 0
  rowsc : Nat → UInt8 := fun _ => 0

structure EngramRunner where
  planes : List Planes
  row_cache : Table RowKey CachedRow := []
  row_fifo : List RowKey := []

namespace Planes

/-- `memcpy` into the next slot, behind an empty future. -/
def stage (pl : Planes) (bytes : List UInt8) : Planes :=
  { pl with
    staging := Region.write pl.staging (pl.pending.length * kStagingPerRead) bytes
    pending := pl.pending ++ [{ read := none, skew := 0 }] }

/-- `answer` is what `require` and `submit_future` say to the read. -/
def submit (pl : Planes) (answer : Result Unit) (row : Nat) (a : AlignedRead) :
    Result Unit × Planes :=
  if a.aligned_bytes > kStagingPerRead then
    (fail .Internal (s!"engram row {row} needs {a.aligned_bytes} B of staging, " ++
      s!"have {kStagingPerRead}"), pl)
  else
    match answer with
    | .error e => (.error e, pl)
    | .ok _ =>
      (.ok (), { pl with pending := pl.pending ++ [{
        read := some {
          file := a.file
          file_off := a.aligned_off
          bytes := a.aligned_bytes
          result := none }
        skew := a.skew }] })

end Planes

section Fetch

variable (m : Manifest) (scales : Option ScalePlanes)

/-- `EngramTables::scale_row`: the bytes at the row of the plane in memory. -/
def resident_scale_row (layer row : Nat) : Option (List UInt8) :=
  (scales.bind fun planes => planes.find layer).map fun plane =>
    (plane.drop (row * kEngramScaleRowBytes)).take kEngramScaleRowBytes

/-- The reads of one row that is not cached; `answers` to the reads by their place in
    `pending`. The branch of a resident scale is the source's, which never takes it: its loop runs
    over copies of the two plans, so that `&a == &plan->scale` fails. What it does is this
    definition with `scales := none`. -/
def fetch_row (answers : Nat → Result Unit) (row : Nat) (pl : Planes) : Result Unit × Planes :=
  match m.engram_row pl.layer row with
  | .error e => (.error e, pl)
  | .ok plan =>
    match pl.submit (answers pl.pending.length) row plan.value with
    | (.error e, pl) => (.error e, pl)
    | (.ok _, pl) =>
      match resident_scale_row scales pl.layer row with
      | some sc => (.ok (), pl.stage sc)
      | none => pl.submit (answers pl.pending.length) row plan.scale

/-- The loop over the rows, from `r` on. -/
def fetch_loop (row_cache : Table RowKey CachedRow) (answers : Nat → Result Unit)
    (rows : List Nat) : (n r : Nat) → Planes → Result Unit × Planes
  | 0, _, pl => (.ok (), pl)
  | n + 1, r, pl =>
    let row := rows.getD r 0
    let pl := { pl with rows := pl.rows.set r row }
    match row_cache.find (pl.layer, row) with
    | some c => fetch_loop row_cache answers rows n (r + 1) ((pl.stage c.value).stage c.scale)
    | none =>
      match fetch_row m scales answers row pl with
      | (.error e, pl) => (.error e, pl)
      | (.ok _, pl) => fetch_loop row_cache answers rows n (r + 1) pl

end Fetch

/-- What `land` has gathered. -/
structure Landing where
  vals : Nat → UInt8 := fun _ => 0
  scs : Nat → UInt8 := fun _ => 0
  failed : Status := { code := .Ok, message := "" }

/-- The result of a read, if it is there; the first failure is kept. -/
def note_result (p : PendingRead) (ld : Landing) : Option Landing :=
  match p.read with
  | none => some ld
  | some rd => rd.result.map fun (status : Status) =>
    if status.code ≠ .Ok ∧ ld.failed.code = .Ok then { ld with failed := status } else ld

/-- `memcpy` out of slot `i`. -/
def gather (staging : Nat → UInt8) (i : Nat) (p : PendingRead) (ld : Landing) : Landing :=
  let src := i * kStagingPerRead + p.skew
  let row := i / 2
  if i % 2 = 1 then
    let bytes := Region.read staging src kEngramScaleRowBytes
    { ld with scs := Region.write ld.scs (row * kEngramScaleRowBytes) bytes }
  else
    let bytes := Region.read staging src kEngramValueRowBytes
    { ld with vals := Region.write ld.vals (row * kEngramValueRowBytes) bytes }

/-- The loop over `pending`, from `i` on; `none` while a read is in flight. -/
def land_loop (staging : Nat → UInt8) : List PendingRead → (i : Nat) → Landing → Option Landing
  | [], _, ld => some ld
  | p :: pending, i, ld =>
    (note_result p ld).bind fun ld => land_loop staging pending (i + 1) (gather staging i p ld)

/-- The loop over the rows that have been read whole, from `r` on. -/
def cache_loop (layer : Nat) (rows : List Nat) (ld : Landing) : (n r : Nat) →
    Table RowKey CachedRow × List RowKey → Table RowKey CachedRow × List RowKey
  | 0, _, c => c
  | n + 1, r, c =>
    let key := (layer, rows.getD r 0)
    if (c.1.find key).isSome then cache_loop layer rows ld n (r + 1) c
    else
      let c :=
        if c.1.length = kRowCacheLimit then
          (c.2.head?.elim c.1 fun oldest => c.1.erase oldest, c.2.tail)
        else c
      let row : CachedRow := {
        value := Region.read ld.vals (r * kEngramValueRowBytes) kEngramValueRowBytes
        scale := Region.read ld.scs (r * kEngramScaleRowBytes) kEngramScaleRowBytes }
      cache_loop layer rows ld n (r + 1) (c.1.emplace key row, c.2 ++ [key])

namespace EngramRunner

/-- `none` while one of the reads of the plane is in flight: `land` waits. -/
def land (s : EngramRunner) (i : Nat) (pl : Planes) : Option (Result Unit × EngramRunner) :=
  if pl.pending = [] then some (.ok (), s)
  else
    (land_loop pl.staging pl.pending 0 {}).map fun ld =>
      if ld.failed.code ≠ .Ok then
        let pl := { pl with pending := [], fetched_position := kNoPosition }
        (fail ld.failed.code s!"engram layer {pl.layer}: {ld.failed.message}",
          { s with planes := s.planes.set i pl })
      else
        let c := cache_loop pl.layer pl.rows ld (pl.pending.length / 2) 0 (s.row_cache, s.row_fifo)
        let pl := { pl with pending := [], rowval := ld.vals, rowsc := ld.scs }
        (.ok (), { planes := s.planes.set i pl, row_cache := c.1, row_fifo := c.2 })

def planes_for (s : EngramRunner) (layer batch_row : Nat) : Option Nat :=
  s.planes.findIdx? fun p => p.layer = layer ∧ p.batch_row = batch_row

/-- `none` where it waits, or where `hash_rows` is not defined or leaves rows unset. -/
def fetch (m : Manifest) (tables : EngramTables) (scales : Option ScalePlanes)
    (answers : Nat → Result Unit) (s : EngramRunner) (layer : Nat) (history : List Nat)
    (position batch_row : Nat) : Option (Result Unit × EngramRunner) :=
  match s.planes_for layer batch_row with
  | none => some (fail .InvalidArgument s!"layer {layer} has no engram", s)
  | some i =>
    (s.planes[i]?.bind fun pl => s.land i pl).bind fun landed =>
      match landed with
      | (.error e, s) => some (.error e, s)
      | (.ok _, s) =>
        (tables.hash_rows layer history position kEngramRowsPerToken).bind fun hashed =>
          match hashed with
          | .error e => some (.error e, s)
          | .ok rows =>
            (if rows.length = kEngramRowsPerToken then s.planes[i]? else none).map fun pl =>
            match fetch_loop m scales s.row_cache answers rows kEngramRowsPerToken 0
                { pl with fetched_position := kNoPosition } with
            | (.error e, pl) => (.error e, { s with planes := s.planes.set i pl })
            | (.ok _, pl) =>
              (.ok (), { s with planes := s.planes.set i { pl with fetched_position := position } })

end EngramRunner

/-! ### Runs -/

/-- The device writes into the window of a read that is in flight, and at last the engine says
    that it is done. -/
inductive RowStep where
  | fetch (layer : Nat) (history : List Nat) (position batch_row : Nat)
      (answers : Nat → Result Unit)
  | land (layer batch_row : Nat)
  | write (i slot off : Nat) (bytes : List UInt8)
  | done (i slot : Nat) (result : Status)

/-- What a runner works with; the planes in memory were loaded from the shards. -/
structure RowSetup where
  cp : Checkpoint
  tables : EngramTables
  scales : Option ScalePlanes
  loaded : ∀ planes, scales = some planes → ∃ opened answer layers,
    load_scales cp.manifest cp.files opened answer layers [] = .ok planes

section Next

variable (cfg : RowSetup)

/-- How much of the window of a read lies in its file. -/
def Checkpoint.in_file (cp : Checkpoint) (rd : RowRead) : Nat :=
  min rd.bytes (cp.size rd.file - rd.file_off)

/-- The read in a slot, while it is in flight. -/
def in_flight (pl : Planes) (slot : Nat) : Option (PendingRead × RowRead) :=
  pl.pending[slot]?.bind fun p => p.read.bind fun rd =>
    if rd.result = none then some (p, rd) else none

def next_row (s : EngramRunner) : RowStep → Option EngramRunner
  | .fetch layer history position batch_row answers =>
    (s.fetch cfg.cp.manifest cfg.tables cfg.scales answers layer history position batch_row).map
      Prod.snd
  | .land layer batch_row =>
    (s.planes_for layer batch_row).bind fun i =>
      s.planes[i]?.bind fun pl => (s.land i pl).map Prod.snd
  | .write i slot off bytes =>
    s.planes[i]?.bind fun pl => (in_flight pl slot).bind fun f =>
      let staging := Region.write pl.staging (slot * kStagingPerRead + off) bytes
      if off + bytes.length ≤ f.2.bytes then
        some { s with planes := s.planes.set i { pl with staging } }
      else none
  | .done i slot result =>
    s.planes[i]?.bind fun pl => (in_flight pl slot).bind fun f =>
      let p := { f.1 with read := some { f.2 with result := some result } }
      -- a read that has succeeded has left the bytes that the file has of its window
      let n := cfg.cp.in_file f.2
      if result.code = .Ok → Region.read pl.staging (slot * kStagingPerRead) n =
          Region.read (cfg.cp.files f.2.file) f.2.file_off n then
        some { s with planes := s.planes.set i { pl with pending := pl.pending.set slot p } }
      else none

end Next

/-- The planes of every layer and batch row, with nothing fetched. -/
def RowSetup.init (cfg : RowSetup) (s : EngramRunner) : Prop :=
  ∃ bindings : Nat, s = {
    planes := cfg.tables.layers.flatMap fun lt =>
      (List.range bindings).map fun batch_row => { layer := lt.layer, batch_row } }

def engram_system (cfg : RowSetup) : LTS.System EngramRunner RowStep :=
  .ofNext cfg.init (next_row cfg)

end CachedMoe.Runtime
