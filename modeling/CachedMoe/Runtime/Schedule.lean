import CachedMoe.Framework.Emit
import CachedMoe.Runtime.MultiStream

/-! # The schedules as sequences of layer phases

    `Engine::decode_step` and `Engine::decode_step_multi` of `runtime/engine.cpp` down to the three
    phases of a layer: in which order they are entered, for which stream and with which
    `apply_post`. A phase is a line in the trace and may fail; what else happens inside one is
    left out here (its commands are in `MultiStream`), as are timings and results. -/

namespace CachedMoe.Runtime.Schedule

open CachedMoe MultiStream Attempt

/-! ### Data model -/

structure MultiStep where
  stream : Nat
  in_token : Nat
  position : Nat
  deriving Repr, DecidableEq, Inhabited

/-- A part of a stream's step, with its arguments. -/
inductive Part where
  | step_prologue (in_token position : Nat)
  | layer_begin (L position : Nat) (apply_post : Bool)
  | layer_gate (L position : Nat)
  | layer_moe (L : Nat) (apply_post : Bool)
  | step_epilogue (position : Nat)
  deriving Repr, DecidableEq

abbrev Trace := List (Nat × Part)

structure Setup where
  gpu_ready : Bool := true
  /-- `num_hidden_layers`; `weights_` has an entry for each. -/
  layers : Nat
  /-- `streams_.size()`. -/
  streams : Nat
  ms_sched : MsSched := .Pipeline
  /-- `engram_.has_layer(L)` of a stream. -/
  has_layer : Nat → Nat → Bool := fun _ _ => false
  /-- How the part at the end of a trace fails, if it does. -/
  failure : Trace → Option Status := fun _ => none

structure Engine where
  setup : Setup
  cur : Nat := 0
  trace : Trace := []

abbrev Step (α : Type) := EStateM Status Engine α

/-! ### Parts of a step -/

/-- A part of stream `s` begins, and becomes the last line of the trace. -/
def enter (s : Nat) (part : Part) : Step Unit := fun e =>
  let e := { e with cur := s, trace := e.trace ++ [(s, part)] }
  match e.setup.failure e.trace with
  | some error => .error error e
  | none => .ok () e

def step_prologue (s in_token position : Nat) : Step Unit :=
  enter s (.step_prologue in_token position)

def step_epilogue (s position : Nat) : Step Unit := enter s (.step_epilogue position)

/-- Returns the new `apply_post`; an engram layer has closed the block before it. -/
def layer_begin (s L position : Nat) (apply_post : Bool) : Step Bool := do
  enter s (.layer_begin L position apply_post)
  let e ← get
  return if e.setup.has_layer s L then false else apply_post

def layer_gate (s L position : Nat) : Step Unit := enter s (.layer_gate L position)

def layer_moe (s L : Nat) (apply_post : Bool) : Step Bool := do
  enter s (.layer_moe L apply_post)
  return true

def run_layer (s L position : Nat) (apply_post : Bool) : Step Bool := do
  let apply_post ← layer_begin s L position apply_post
  layer_gate s L position
  layer_moe s L apply_post

def decode_step (in_token position : Nat) : Step Unit := do
  let e ← get
  let s := e.cur
  if ¬ e.setup.gpu_ready then
    throw { code := .FailedPrecondition, message := "call init_gpu() first" }
  else if e.setup.layers = 0 then
    throw { code := .FailedPrecondition, message := "no layer weights resolved" }
  else
    step_prologue s in_token position
    let _ ← (List.range e.setup.layers).foldlM
      (fun apply_post L => run_layer s L position apply_post) false
    step_epilogue s position

def select_stream (i : Nat) : Step Unit := do
  let e ← get
  if e.setup.streams ≤ i then
    throw { code := .OutOfRange, message := s!"stream {i} of {e.setup.streams}" }
  else set { e with cur := i }

/-! ### Several streams -/

section Steps

variable (steps : List MultiStep)

/-- `steps[i]`. -/
def step_at (i : Nat) : MultiStep := steps.getD i default

def stream_of (i : Nat) : Nat := (step_at steps i).stream

/-- The flags of all steps, with that of step `i` as the phase leaves it. -/
def begin_at (apply_post : Nat → Bool) (i L : Nat) : Step (Nat → Bool) := do
  let ap ← layer_begin (stream_of steps i) L (step_at steps i).position (apply_post i)
  return Function.update apply_post i ap

def gate_at (i L : Nat) : Step Unit := layer_gate (stream_of steps i) L (step_at steps i).position

def moe_at (apply_post : Nat → Bool) (i L : Nat) : Step (Nat → Bool) := do
  let ap ← layer_moe (stream_of steps i) L (apply_post i)
  return Function.update apply_post i ap

/-- A layer of `MsSched::Interleave`. -/
def interleave_layer (apply_post : Nat → Bool) (L : Nat) : Step (Nat → Bool) := do
  let n := steps.length
  let apply_post ← (List.range n).foldlM (fun ap i => begin_at steps ap i L) apply_post
  (List.range n).forM fun i => gate_at steps i L
  (List.range n).foldlM (fun ap i => moe_at steps ap i L) apply_post

/-- The next unit of GPU work: the next step's attention for this layer, or the first step's for the
    next layer. -/
def begin_next (layers L : Nat) (apply_post : Nat → Bool) (i : Nat) : Step (Nat → Bool) :=
  if i + 1 < steps.length then begin_at steps apply_post (i + 1) L
  else if L + 1 < layers then begin_at steps apply_post 0 (L + 1)
  else pure apply_post

/-- Step `i` of a layer of the pipeline; before its experts are waited for, the next unit of work
    is submitted. -/
def pipeline_step (layers L : Nat) (apply_post : Nat → Bool) (i : Nat) : Step (Nat → Bool) := do
  gate_at steps i L
  let apply_post ← begin_next steps layers L apply_post i
  moe_at steps apply_post i L

def pipeline_layer (layers : Nat) (apply_post : Nat → Bool) (L : Nat) : Step (Nat → Bool) :=
  (List.range steps.length).foldlM (pipeline_step steps layers L) apply_post

/-- The layer loop of a schedule that is not the ping-pong. -/
def layer_loop (sched : MsSched) (layers : Nat) (apply_post : Nat → Bool) : Step (Nat → Bool) :=
  if sched = .Interleave then
    (List.range layers).foldlM (interleave_layer steps) apply_post
  else do
    let apply_post ← begin_at steps apply_post 0 0
    (List.range layers).foldlM (pipeline_layer steps layers) apply_post

/-- One step after the other. -/
def ping_pong : Step Unit :=
  steps.forM fun m => do
    select_stream m.stream
    decode_step m.in_token m.position

def interleaved (sched : MsSched) (layers : Nat) : Step Unit := do
  steps.forM fun m => step_prologue m.stream m.in_token m.position
  let _ ← layer_loop steps sched layers fun _ => false
  steps.forM fun m => step_epilogue m.stream m.position

/-- `results` is `out.size()`. -/
def decode_step_multi (results : Nat) : Step Unit := do
  let e ← get
  let st := e.setup
  if ¬ st.gpu_ready then throw { code := .FailedPrecondition, message := "call init_gpu() first" }
  else if st.layers = 0 then
    throw { code := .FailedPrecondition, message := "no layer weights resolved" }
  else if steps = [] then throw { code := .InvalidArgument, message := "no steps" }
  else if results ≠ steps.length then
    throw { code := .InvalidArgument, message := "one result per step, please" }
  else
    match steps.find? fun m => st.streams ≤ m.stream with
    | some m => throw { code := .OutOfRange, message := s!"stream {m.stream} of {st.streams}" }
    | none =>
      if ¬ (steps.map MultiStep.stream).Nodup then
        throw { code := .InvalidArgument, message := "a stream may take one step at a time" }
      else if steps.length = 1 ∨ st.ms_sched = .PingPong then ping_pong steps
      else interleaved steps st.ms_sched st.layers

end Steps

end CachedMoe.Runtime.Schedule
