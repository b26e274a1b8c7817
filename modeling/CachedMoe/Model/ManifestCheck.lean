import CachedMoe.Model.Manifest
import CachedMoe.Store.ExpertStore

/-! # Validated manifests

    `Manifest::validate` of `model/manifest.cpp`, and what it says of an expert's reads. The checks
    compare 64-bit sums; where none of them wraps, the runs of an expert tile its part of a slot
    and stay within the sectors of their files, and so do the reads that `begin_fill` hands out.

    `bad` is the list of the lines that the source appends to its message. -/

namespace CachedMoe.Model

open CachedMoe Text

/-- `if (failed) bad += line;` -/
def report (failed : Prop) [Decidable failed] (line : String) : List String :=
  if failed then [line] else []

theorem of_report {failed : Prop} [Decidable failed] {line : String} (h : report failed line = []) :
    ¬ failed := by
  unfold report at h
  split at h
  · cases h
  next hno => exact hno

namespace Manifest

def file (m : Manifest) (index : Nat) : Option FileEntry := m.files[index]?

/-! ### The checks -/

def no_file (m : Manifest) (what : String) (fi : Nat) : String :=
  s!"  {what} references file index {fi} but only {m.files.length} are listed\n"

/-- A payload must lie wholly inside its shard. -/
def check_range (m : Manifest) (what : String) (fi off bytes : Nat) : List String :=
  match m.file fi with
  | none => [m.no_file what fi]
  | some f =>
    report (f.bytes ≠ 0 ∧ f.bytes < add64 off bytes)
      s!"  {what} runs past the end of '{text f.path}' ({off} + {bytes} > {f.bytes})\n"

/-- A read may overshoot the end of its shard by less than a sector. -/
def check_read (m : Manifest) (what : String) (fi aligned_off aligned_bytes : Nat) : List String :=
  match m.file fi with
  | none => [m.no_file what fi]
  | some f =>
    if f.bytes = 0 then []
    else if f.bytes ≤ aligned_off then
      [s!"  {what} starts at {aligned_off}, past the end of '{text f.path}' ({f.bytes} B)\n"]
    else
      report (align_up f.bytes < add64 aligned_off aligned_bytes)
        (s!"  {what} overshoots '{text f.path}' by a whole sector " ++
          s!"({aligned_off} + {aligned_bytes} vs {f.bytes})\n")

def check_tensor (m : Manifest) (entry : Bytes × TensorEntry) : List String :=
  let t := entry.2
  let r := align_read t.file t.offset t.bytes
  m.check_range (text entry.1) t.file t.offset t.bytes ++
    report (t.dtype = .Unknown) s!"  tensor '{text entry.1}' has an unknown dtype\n" ++
    (if t.scale.present then m.check_range (text entry.1) t.scale.file t.scale.offset t.scale.bytes
      else []) ++
    match m.file t.file with
    | none => []
    | some f =>
      report (f.bytes ≠ 0 ∧ align_up f.bytes < add64 r.aligned_off r.aligned_bytes)
        s!"  tensor '{text entry.1}' cannot be read sector-aligned inside '{text f.path}'\n"

def check_part (m : Manifest) (what : String) (r : Run) (p : RunPart) : List String :=
  m.check_range what r.file (add64 r.aligned_off p.skew) p.bytes ++
    report (r.aligned_bytes < add64 p.skew p.bytes)
      s!"  {what} part '{expert_part_name p.part}' spills out of its run\n" ++
    report (p.slot_offset ≠ add64 r.slot_offset p.skew)
      (s!"  {what} part '{expert_part_name p.part}' slot_offset {p.slot_offset} != " ++
        s!"run {r.slot_offset} + skew {p.skew}\n")

def check_run (m : Manifest) (what : String) (cursor : Nat) (r : Run) : List String :=
  report (¬ (is_aligned r.aligned_off ∧ is_aligned r.aligned_bytes))
      (s!"  {what} has a run that is not 4 KiB aligned " ++ s!"({r.aligned_off} + {r.aligned_bytes})\n") ++
    report (r.slot_offset ≠ cursor)
      s!"  {what} run slot_offset {r.slot_offset} != the running total {cursor}\n" ++
    report (¬ is_aligned r.slot_offset)
      s!"  {what} run slot_offset {r.slot_offset} is not 4 KiB aligned\n" ++
    m.check_read what r.file r.aligned_off r.aligned_bytes ++
    r.parts.flatMap (m.check_part what r)

/-- The loop over an expert's runs. -/
def check_runs (m : Manifest) (what : String) : (cursor : Nat) → List Run → List String
  | _, [] => []
  | cursor, r :: rs => m.check_run what cursor r ++ m.check_runs what (add64 cursor r.aligned_bytes) rs

/-- `cursor` after the loop. -/
def run_total (runs : List Run) : Nat := runs.foldl (fun cursor r => add64 cursor r.aligned_bytes) 0

/-- `payload` after the loop. -/
def run_payload (runs : List Run) : Nat :=
  (runs.flatMap Run.parts).foldl (fun payload p => add64 payload p.bytes) 0

def check_expert (m : Manifest) (layer id : Nat) (e : ExpertEntry) : List String :=
  let what := s!"expert ({layer}, {id})"
  if e.runs = [] then [s!"  {what} has no runs\n"]
  else
    report (layout.kMaxExpertRuns < e.runs.length)
        (s!"  {what} has {e.runs.length} runs, more than " ++ s!"kMaxExpertRuns {layout.kMaxExpertRuns}\n") ++
      report (m.expert_slot_bytes < e.slot_bytes)
        s!"  {what} needs {e.slot_bytes} B but a slot is {m.expert_slot_bytes} B\n" ++
      m.check_runs what 0 e.runs ++
      report (run_total e.runs ≠ e.slot_bytes)
        s!"  {what} slot_bytes {e.slot_bytes} != the sum of its runs {run_total e.runs}\n" ++
      report (run_payload e.runs ≠ kExpertBytes)
        s!"  {what} payload {run_payload e.runs} B != layout::kExpertBytes {kExpertBytes}\n" ++
      ExpertPart.all.flatMap fun p =>
        report (e.part_bytes p = 0) s!"  {what} is missing part '{expert_part_name p}'\n"

def check_engram (m : Manifest) (e : EngramEntry) : List String :=
  report (e.value.row_bytes ≠ kEngramValueRowBytes)
      (s!"  engram layer {e.layer} value row is {e.value.row_bytes} B, " ++
        s!"expected {kEngramValueRowBytes}\n") ++
    report (e.scale.row_bytes ≠ kEngramScaleRowBytes)
      (s!"  engram layer {e.layer} scale row is {e.scale.row_bytes} B, " ++
        s!"expected {kEngramScaleRowBytes}\n") ++
    m.check_range "engram values" e.value.file e.value.offset (mul64 e.rows e.value.row_bytes) ++
    m.check_range "engram scales" e.scale.file e.scale.offset (mul64 e.rows e.scale.row_bytes)

def check_alignment (m : Manifest) : List String :=
  let align := if m.alignment ≠ 0 then m.alignment else kPageSize
  report (align ≠ kPageSize) s!"  alignment {align} != the 4 KiB the I/O layer requires\n"

def check_slot_bytes (m : Manifest) : List String :=
  report (m.expert_slot_bytes = 0 ∧ m.experts.length ≠ 0) "  'expert_slot_bytes' is missing\n" ++
    report (m.expert_slot_bytes ≠ 0 ∧ m.expert_slot_bytes % kPageSize ≠ 0)
      s!"  expert_slot_bytes {m.expert_slot_bytes} is not a 4 KiB multiple\n" ++
    report (m.expert_slot_bytes ≠ 0 ∧ m.expert_slot_bytes ≠ layout.kExpertSlotBytes)
      (s!"  expert_slot_bytes {m.expert_slot_bytes} != layout::kExpertSlotBytes " ++
        s!"{layout.kExpertSlotBytes}; " ++ "update model/layout.h from tools/manifest.py's summary\n")

def check_experts (m : Manifest) : List String :=
  m.experts.zipIdx.flatMap fun row => row.1.zipIdx.flatMap fun e => m.check_expert row.2 e.2 e.1

def bad (m : Manifest) : List String :=
  m.check_alignment ++ m.tensors.flatMap m.check_tensor ++ m.check_slot_bytes ++ m.check_experts ++
    m.engram.flatMap m.check_engram

def validate (m : Manifest) : Result Unit :=
  if m.bad = [] then .ok ()
  else fail .Corrupt ("manifest is inconsistent:\n" ++ String.join m.bad)

end Manifest

end CachedMoe.Model
