import CachedMoe.Runtime.Schedule

/-! # Every schedule runs every stream's step

    What `decode_step_multi` runs for one of its streams is, under each schedule, what
    `decode_step` runs for it alone: the same phases with the same `apply_post`. The schedules are
    first written as lists of turns; a turn of a stream touches that stream's flag only. -/

namespace CachedMoe.Runtime.Schedule

open CachedMoe MultiStream Attempt

variable {st : Setup} {steps : List MultiStep}

/-! ### One stream -/

inductive Phase where
  | begin (L : Nat)
  | gate (L : Nat)
  | moe (L : Nat)
  deriving Repr, DecidableEq

/-- `apply_post` behind a phase of stream `s`. -/
def Phase.flag (st : Setup) (s : Nat) (apply_post : Bool) : Phase → Bool
  | .begin L => if st.has_layer s L then false else apply_post
  | .gate _ => apply_post
  | .moe _ => true

def Phase.part (position : Nat) (apply_post : Bool) : Phase → Part
  | .begin L => .layer_begin L position apply_post
  | .gate L => .layer_gate L position
  | .moe L => .layer_moe L apply_post

def layer_phases (L : Nat) : List Phase := [.begin L, .gate L, .moe L]

/-- Layer `L` of a step; the very first block has nothing to fold in. -/
def layer_parts (st : Setup) (m : MultiStep) (L : Nat) : List Part :=
  [.layer_begin L m.position (L ≠ 0), .layer_gate L m.position,
    .layer_moe L (L ≠ 0 && !st.has_layer m.stream L)]

def step_parts (st : Setup) (m : MultiStep) : List Part :=
  .step_prologue m.in_token m.position ::
    ((List.range st.layers).flatMap (layer_parts st m) ++ [.step_epilogue m.position])

/-- The phases of a step, with the flag handed from one to the next. -/
theorem phases_eq (m : MultiStep) (layers : Nat) :
    fold_events (Phase.flag st m.stream) (fun ap p => [p.part m.position ap]) false
        ((List.range layers).flatMap layer_phases) =
      (List.range layers).flatMap (layer_parts st m) ∧
    ((List.range layers).flatMap layer_phases).foldl (Phase.flag st m.stream) false =
      decide (layers ≠ 0) := by
  induction layers with
  | zero => exact ⟨rfl, rfl⟩
  | succ L ih =>
    obtain ⟨hevents, hflag⟩ := ih
    rw [List.range_succ, List.flatMap_append, List.flatMap_append, fold_events_append,
      List.foldl_append, hevents, hflag]
    have hsucc : decide (L + 1 ≠ 0) = true := by simp
    refine ⟨?_, hsucc.symm⟩
    congr 1
    cases hengram : st.has_layer m.stream L with
    | false => simp [layer_phases, layer_parts, fold_events, Phase.flag, Phase.part, hengram]
    | true => simp [layer_phases, layer_parts, fold_events, Phase.flag, Phase.part, hengram]

/-! ### What the parts emit -/

/-- The engine with stream `s` selected. -/
def On (st : Setup) (s : Nat) (e : Engine) : Prop := e.setup = st ∧ e.cur = s

abbrev Runs (st : Setup) {α : Type} (m : Step α) (events : Trace) (a : α) : Prop :=
  Emits Engine.trace (fun e => e.setup = st) m events a fun e => e.setup = st

abbrev RunsOn (st : Setup) (s : Nat) {α : Type} (m : Step α) (events : Trace) (a : α) : Prop :=
  Emits Engine.trace (On st s) m events a (On st s)

theorem enter_emits (s : Nat) (part : Part) :
    Emits Engine.trace (fun e => e.setup = st) (enter s part) [(s, part)] ⟨⟩ (On st s) := by
  intro e he
  unfold enter
  dsimp only
  cases e.setup.failure (e.trace ++ [(s, part)]) with
  | none => exact ⟨⟨he, rfl⟩, rfl, rfl⟩
  | some error => exact ⟨_, List.prefix_rfl, rfl⟩

theorem layer_begin_emits (s L position : Nat) (ap : Bool) :
    Emits Engine.trace (fun e => e.setup = st) (layer_begin s L position ap)
      [(s, .layer_begin L position ap)] ((Phase.begin L).flag st s ap) (On st s) := by
  have hreturn : Emits Engine.trace (On st s) (get >>= fun e : Engine =>
      (pure (if e.setup.has_layer s L then false else ap) : Step Bool)) []
      ((Phase.begin L).flag st s ap) (On st s) := by
    refine Emits.get_bind fun e he => ?_
    rw [he.1]
    exact Emits.pure.conseq (fun e' h => h ▸ he) fun _ h => h
  exact (enter_emits s _).bind hreturn

theorem layer_moe_emits (s L : Nat) (ap : Bool) :
    Emits Engine.trace (fun e => e.setup = st) (layer_moe s L ap) [(s, .layer_moe L ap)] true
      (On st s) :=
  (enter_emits s _).bind Emits.pure

theorem run_layer_emits (m : MultiStep) (L : Nat) (ap : Bool) :
    RunsOn st m.stream (run_layer m.stream L m.position ap)
      ((fold_events (Phase.flag st m.stream) (fun ap p => [p.part m.position ap]) ap
        (layer_phases L)).map fun part => (m.stream, part))
      ((layer_phases L).foldl (Phase.flag st m.stream) ap) := by
  have hforget : ∀ e, On st m.stream e → e.setup = st := fun e he => he.1
  exact ((layer_begin_emits m.stream L m.position ap).conseq hforget fun _ h => h).bind
    (((enter_emits m.stream _).conseq hforget fun _ h => h).bind
      ((layer_moe_emits m.stream L _).conseq hforget fun _ h => h))

theorem decode_step_emits (m : MultiStep) :
    RunsOn st m.stream (decode_step m.in_token m.position)
      ((step_parts st m).map fun part => (m.stream, part)) ⟨⟩ := by
  have hforget : ∀ e, On st m.stream e → e.setup = st := fun e he => he.1
  refine Emits.get_bind fun e he => ?_
  refine Emits.conseq (P := On st m.stream) ?_ (fun e' h => h ▸ he) fun _ h => h
  obtain ⟨rfl, hcur⟩ := he
  dsimp only
  rw [hcur]
  split
  · exact Emits.throw
  split
  · exact Emits.throw
  have hloop : RunsOn e.setup m.stream ((List.range e.setup.layers).foldlM
      (fun ap L => run_layer m.stream L m.position ap) false) _ _ :=
    Emits.foldlM (fun ap L => run_layer_emits m L ap) false _
  refine (((enter_emits m.stream _).conseq hforget fun _ h => h).bind
    (hloop.bind ((enter_emits m.stream _).conseq hforget fun _ h => h))).of_eq ?_
  rw [← fold_events_map, ← fold_events_flatMap, (phases_eq m _).1, step_parts]
  simp

/-! ### Turns of several streams -/

/-- The flags behind some turns. -/
abbrev after_turns (st : Setup) (steps : List MultiStep) (ap : Nat → Bool)
    (turns : List (Nat × Phase)) : Nat → Bool :=
  turns.foldl (turn fun i => Phase.flag st (stream_of steps i)) ap

abbrev turn_events (st : Setup) (steps : List MultiStep) (ap : Nat → Bool)
    (turns : List (Nat × Phase)) : Trace :=
  fold_events (turn fun i => Phase.flag st (stream_of steps i))
    (turn_event (stream_of steps) fun i ap p => p.part (step_at steps i).position ap) ap turns

/-- A program that takes the flags to new ones runs these turns. -/
def Takes (st : Setup) (steps : List MultiStep) (prog : (Nat → Bool) → Step (Nat → Bool))
    (turns : List (Nat × Phase)) : Prop :=
  ∀ ap, Runs st (prog ap) (turn_events st steps ap turns) (after_turns st steps ap turns)

theorem Takes.pure : Takes st steps pure [] := fun _ => Emits.pure

theorem Takes.seq {p q : (Nat → Bool) → Step (Nat → Bool)} {turns more : List (Nat × Phase)}
    (hp : Takes st steps p turns) (hq : Takes st steps q more) :
    Takes st steps (fun ap => p ap >>= q) (turns ++ more) := by
  intro ap
  have hboth := (hp ap).bind (hq (after_turns st steps ap turns))
  rw [turn_events, after_turns, fold_events_append, List.foldl_append]
  exact hboth

theorem Takes.foldlM {α : Type} {f : (Nat → Bool) → α → Step (Nat → Bool)}
    {g : α → List (Nat × Phase)} (h : ∀ c, Takes st steps (fun ap => f ap c) (g c)) (l : List α) :
    Takes st steps (fun ap => l.foldlM f ap) (l.flatMap g) := by
  intro ap
  have hloop := Emits.foldlM (fun ap c => h c ap) ap l
  rw [turn_events, after_turns, fold_events_flatMap, List.foldl_flatMap]
  exact hloop

theorem begin_takes (i L : Nat) :
    Takes st steps (fun ap => begin_at steps ap i L) [(i, .begin L)] :=
  fun ap => ((layer_begin_emits _ L _ (ap i)).conseq (fun _ h => h) fun _ h => h.1).bind Emits.pure

theorem moe_takes (i L : Nat) : Takes st steps (fun ap => moe_at steps ap i L) [(i, .moe L)] :=
  fun ap => ((layer_moe_emits _ L (ap i)).conseq (fun _ h => h) fun _ h => h.1).bind Emits.pure

theorem turn_gate (ap : Nat → Bool) (i L : Nat) :
    turn (fun i => Phase.flag st (stream_of steps i)) ap (i, .gate L) = ap :=
  Function.update_eq_self i ap

theorem gate_takes {p : (Nat → Bool) → Step (Nat → Bool)} {turns : List (Nat × Phase)} (i L : Nat)
    (hp : Takes st steps p turns) :
    Takes st steps (fun ap => gate_at steps i L >>= fun _ => p ap) ((i, .gate L) :: turns) := by
  intro ap
  have hgate : Runs st (gate_at steps i L) _ _ := (enter_emits (stream_of steps i)
    (.layer_gate L (step_at steps i).position)).conseq (fun _ h => h) fun _ h => h.1
  rw [turn_events, after_turns, fold_events, List.foldl_cons, turn_gate]
  exact hgate.bind (hp ap)

theorem gates_take {p : (Nat → Bool) → Step (Nat → Bool)} {turns : List (Nat × Phase)} (L : Nat)
    (hp : Takes st steps p turns) (is : List Nat) :
    Takes st steps (fun ap => (is.forM fun i => gate_at steps i L) >>= fun _ => p ap)
      ((is.map fun i => (i, .gate L)) ++ turns) := by
  induction is with
  | nil => exact hp
  | cons i is ih =>
    have hassoc : ∀ ap, (((i :: is).forM fun i => gate_at steps i L) >>= fun _ => p ap) =
        gate_at steps i L >>= fun _ => (is.forM fun i => gate_at steps i L) >>= fun _ => p ap :=
      fun ap => bind_assoc _ _ _
    intro ap
    dsimp only
    rw [hassoc ap]
    exact gate_takes i L ih ap

/-! ### The schedules as turns -/

def interleave_turns (n L : Nat) : List (Nat × Phase) :=
  ((List.range n).map fun i => (i, Phase.begin L)) ++
    (((List.range n).map fun i => (i, Phase.gate L)) ++
      (List.range n).map fun i => (i, Phase.moe L))

/-- The unit of work that is submitted before step `i` waits for its experts. -/
def ahead_turn (n layers L i : Nat) : List (Nat × Phase) :=
  if i + 1 < n then [(i + 1, .begin L)] else if L + 1 < layers then [(0, .begin (L + 1))] else []

def pipeline_turns (n layers L : Nat) : List (Nat × Phase) :=
  (List.range n).flatMap fun i => (i, .gate L) :: (ahead_turn n layers L i ++ [(i, .moe L)])

def turns (n layers : Nat) (sched : MsSched) : List (Nat × Phase) :=
  if sched = .Interleave then (List.range layers).flatMap (interleave_turns n)
  else (0, .begin 0) :: (List.range layers).flatMap (pipeline_turns n layers)

theorem interleave_layer_takes (L : Nat) :
    Takes st steps (fun ap => interleave_layer steps ap L) (interleave_turns steps.length L) := by
  have hbegin : Takes st steps _ _ :=
    Takes.foldlM (fun i => begin_takes i L) (List.range steps.length)
  have hmoe : Takes st steps _ _ :=
    Takes.foldlM (fun i => moe_takes i L) (List.range steps.length)
  rw [← List.map_eq_flatMap] at hbegin hmoe
  exact hbegin.seq (gates_take L hmoe _)

theorem pipeline_step_takes (layers L i : Nat) :
    Takes st steps (fun ap => pipeline_step steps layers L ap i)
      ((i, .gate L) :: (ahead_turn steps.length layers L i ++ [(i, .moe L)])) := by
  have hnext : Takes st steps (fun ap => begin_next steps layers L ap i)
      (ahead_turn steps.length layers L i) := by
    unfold begin_next ahead_turn
    split
    · exact begin_takes (i + 1) L
    split
    · exact begin_takes 0 (L + 1)
    · exact Takes.pure
  exact gate_takes i L (hnext.seq (moe_takes i L))

theorem layer_loop_takes (sched : MsSched) (layers : Nat) :
    Takes st steps (layer_loop steps sched layers) (turns steps.length layers sched) := by
  unfold layer_loop turns
  split
  · exact Takes.foldlM interleave_layer_takes _
  · refine (begin_takes 0 0).seq (Takes.foldlM (fun L => ?_) _)
    exact Takes.foldlM (fun i => pipeline_step_takes layers L i) _

/-! ### What a stream gets -/

theorem project_interleave {i n : Nat} (hi : i < n) (L : Nat) :
    project i (interleave_turns n L) = layer_phases L := by
  have hmem : i ∈ List.range n := List.mem_range.mpr hi
  rw [interleave_turns, project_append, project_append, project_map List.nodup_range,
    project_map List.nodup_range, project_map List.nodup_range, if_pos hmem, if_pos hmem,
    if_pos hmem]
  rfl

/-- Step `i`'s share of what is run for step `j` of a pipeline layer. -/
def share (n layers L i j : Nat) : List Phase :=
  (if j = i then [.gate L] else []) ++
    (if j + 1 < n then if j + 1 = i then [.begin L] else []
      else if L + 1 < layers ∧ i = 0 then [.begin (L + 1)] else []) ++
    if j = i then [.moe L] else []

theorem project_step (n layers L i j : Nat) :
    project i ((j, Phase.gate L) :: (ahead_turn n layers L j ++ [(j, .moe L)])) =
      share n layers L i j := by
  have hahead : project i (ahead_turn n layers L j) =
      if j + 1 < n then if j + 1 = i then [.begin L] else []
      else if L + 1 < layers ∧ i = 0 then [.begin (L + 1)] else [] := by
    unfold ahead_turn
    split
    · rw [project_singleton]
    split
    · next hnext => simp only [project_singleton, hnext, true_and, eq_comm]
    · next hlast =>
      rw [if_neg fun h => hlast h.1]
      rfl
  rw [← List.singleton_append, project_append, project_append, project_singleton, hahead,
    project_singleton, share, List.append_assoc]

/-- The shares of a step that is not the first, up to step `k`: its attention is begun by the one
    before it. -/
theorem shares_rest {i n layers L : Nat} (hi : 0 < i) (hin : i < n) {k : Nat} (hk : k ≤ n) :
    (List.range k).flatMap (share n layers L i) =
      if k < i then [] else if k = i then [Phase.begin L] else layer_phases L := by
  induction k with
  | zero => rw [if_pos hi]; rfl
  | succ k ih =>
    rw [List.range_succ, List.flatMap_append, ih (Nat.le_of_succ_le hk), List.flatMap_singleton,
      share]
    have hne : i ≠ 0 := Nat.pos_iff_ne_zero.mp hi
    rcases Nat.lt_trichotomy k i with hlt | rfl | hgt
    · have hnext : k + 1 < n := by omega
      by_cases heq : k + 1 = i
      · subst heq
        simp [hnext]
      · have hstill : k + 1 < i := by omega
        simp [hlt, hlt.ne, hnext, heq, hstill]
    · have hover : ¬ k + 1 < k := by omega
      simp [hne, hover, layer_phases]
    · have hover : ¬ k + 1 < i := by omega
      have hover' : ¬ k < i := by omega
      have hother : k + 1 ≠ i := by omega
      simp [hne, hover, hover', hother, hgt.ne']

/-- The shares of the first step: the last one begins its attention for the next layer. -/
theorem shares_first {n layers L : Nat} (hn : 1 < n) {k : Nat} (hk : k ≤ n) :
    (List.range k).flatMap (share n layers L 0) =
      if k = 0 then [] else [Phase.gate L, .moe L] ++
        if k = n ∧ L + 1 < layers then [.begin (L + 1)] else [] := by
  induction k with
  | zero => rfl
  | succ k ih =>
    rw [List.range_succ, List.flatMap_append, ih (Nat.le_of_succ_le hk), List.flatMap_singleton,
      share, if_neg (Nat.succ_ne_zero k)]
    by_cases hlast : k + 1 = n
    · have hfirst : k ≠ 0 := by omega
      have hbefore : k ≠ n := by omega
      simp [hlast, hfirst, hbefore]
      omega
    · have hnext : k + 1 < n := by omega
      have hbefore : k ≠ n := by omega
      by_cases hfirst : k = 0
      · simp [hfirst, hn, hn.ne]
      · simp [hfirst, hlast, hnext, hbefore]

/-- A loop whose body `b` ends by starting the next round's `a`. -/
theorem flatMap_ahead {α : Type} (a : Nat → α) (b : Nat → List α) {layers : Nat}
    (hpos : 0 < layers) :
    a 0 :: (List.range layers).flatMap
        (fun L => b L ++ if L + 1 < layers then [a (L + 1)] else []) =
      (List.range layers).flatMap fun L => a L :: b L := by
  suffices hupto : ∀ k ≤ layers, a 0 :: (List.range k).flatMap
        (fun L => b L ++ if L + 1 < layers then [a (L + 1)] else []) =
      ((List.range k).flatMap fun L => a L :: b L) ++ if k < layers then [a k] else [] by
    have hall := hupto layers le_rfl
    rwa [if_neg (Nat.lt_irrefl layers), List.append_nil] at hall
  intro k hk
  induction k with
  | zero =>
    rw [if_pos hpos]
    rfl
  | succ k ih =>
    have hlt : k < layers := hk
    rw [List.range_succ, List.flatMap_append, List.flatMap_append, List.flatMap_singleton,
      List.flatMap_singleton, ← List.cons_append, ih (Nat.le_of_succ_le hk), if_pos hlt]
    simp

/-- Under every schedule a step runs its phases layer by layer. -/
theorem project_turns_eq {i n layers : Nat} (hi : i < n) (hn : 1 < n) (hlayers : 0 < layers)
    (sched : MsSched) :
    project i (turns n layers sched) = (List.range layers).flatMap layer_phases := by
  unfold turns
  split
  · rw [project_flatMap]
    exact List.flatMap_congr fun L _ => project_interleave hi L
  rw [← List.singleton_append, project_append, project_singleton, project_flatMap]
  have hlayer : ∀ L, project i (pipeline_turns n layers L) =
      (List.range n).flatMap (share n layers L i) := by
    intro L
    rw [pipeline_turns, project_flatMap]
    exact List.flatMap_congr fun j _ => project_step n layers L i j
  simp only [hlayer]
  by_cases hfirst : i = 0
  · subst hfirst
    simp only [shares_first hn le_rfl, if_neg (Nat.ne_of_gt hi), true_and, if_pos]
    exact flatMap_ahead Phase.begin (fun L => [.gate L, .moe L]) hlayers
  · rw [if_neg (Ne.symm hfirst), List.nil_append]
    simp only [shares_rest (Nat.pos_of_ne_zero hfirst) hi le_rfl, if_neg (Nat.not_lt.mpr hi.le),
      if_neg (Nat.ne_of_gt hi)]

/-! ### Steps of several streams -/

theorem turns_lt {n layers : Nat} (hn : 0 < n) (sched : MsSched) :
    ∀ c ∈ turns n layers sched, c.1 < n := by
  intro c hc
  unfold turns at hc
  split at hc
  · obtain ⟨L, _, hc⟩ := List.mem_flatMap.mp hc
    rw [interleave_turns, List.mem_append, List.mem_append] at hc
    rcases hc with hc | hc | hc
    all_goals
      obtain ⟨i, hi, rfl⟩ := List.mem_map.mp hc
      exact List.mem_range.mp hi
  · rcases List.mem_cons.mp hc with rfl | hc
    · exact hn
    obtain ⟨L, _, hc⟩ := List.mem_flatMap.mp hc
    obtain ⟨i, hi, hc⟩ := List.mem_flatMap.mp hc
    have hlt : i < n := List.mem_range.mp hi
    rw [List.mem_cons, List.mem_append, List.mem_singleton] at hc
    rcases hc with rfl | hc | rfl
    · exact hlt
    · unfold ahead_turn at hc
      split at hc
      · next hnext =>
        obtain rfl := List.mem_singleton.mp hc
        exact hnext
      split at hc
      · obtain rfl := List.mem_singleton.mp hc
        exact hn
      · exact absurd hc List.not_mem_nil
    · exact hlt

/-- The trace of a call that is not refused. -/
def multi_trace (st : Setup) (steps : List MultiStep) : Trace :=
  if steps.length = 1 ∨ st.ms_sched = .PingPong then
    steps.flatMap fun m => (step_parts st m).map fun part => (m.stream, part)
  else
    (steps.map fun m => (m.stream, .step_prologue m.in_token m.position)) ++
      (turn_events st steps (fun _ => false) (turns steps.length st.layers st.ms_sched) ++
        steps.map fun m => (m.stream, .step_epilogue m.position))

theorem select_stream_emits (s : Nat) :
    Emits Engine.trace (fun e => e.setup = st) (select_stream s) [] ⟨⟩ (On st s) := by
  refine Emits.get_bind fun e he => ?_
  split
  · exact Emits.throw
  · intro e' heq
    subst heq
    exact ⟨⟨he, rfl⟩, rfl, (List.append_nil e'.trace).symm⟩

theorem decode_step_multi_emits (results : Nat) :
    Runs st (decode_step_multi steps results) (multi_trace st steps) ⟨⟩ := by
  refine Emits.get_bind fun e he => ?_
  refine Emits.conseq (P := fun e => e.setup = st) ?_ (fun e' h => h ▸ he) fun _ h => h
  simp only [he]
  split
  · exact Emits.throw
  split
  · exact Emits.throw
  split
  · exact Emits.throw
  split
  · exact Emits.throw
  split
  · exact Emits.throw
  split
  · exact Emits.throw
  unfold multi_trace
  split
  · refine Emits.forM fun m _ => ?_
    exact (select_stream_emits m.stream).bind
      ((decode_step_emits m).conseq (fun _ h => h) fun _ h => h.1)
  · have hprologue : Runs st (steps.forM fun m => step_prologue m.stream m.in_token m.position)
        _ _ := Emits.forM fun m _ => (enter_emits _ _).conseq (fun _ h => h) fun _ h => h.1
    have hepilogue : Runs st (steps.forM fun m => step_epilogue m.stream m.position) _ _ :=
      Emits.forM fun m _ => (enter_emits _ _).conseq (fun _ h => h) fun _ h => h.1
    rw [← List.map_eq_flatMap] at hprologue hepilogue
    exact hprologue.bind ((layer_loop_takes st.ms_sched st.layers _).bind hepilogue)

/-- What a stream gets of the whole trace. -/
theorem project_multi (hlayers : 0 < st.layers) (hdistinct : (steps.map MultiStep.stream).Nodup)
    {m : MultiStep} (hm : m ∈ steps) :
    project m.stream (multi_trace st steps) = step_parts st m := by
  unfold multi_trace
  split
  · exact project_each hdistinct hm
  next hmany =>
  obtain ⟨i, hi, rfl⟩ := List.getElem_of_mem hm
  have hpos : 0 < steps.length := Nat.zero_lt_of_lt hi
  have hn : 1 < steps.length := by omega
  have hat : ∀ j (hj : j < steps.length), step_at steps j = steps[j] :=
    fun j hj => by simp [step_at, hj]
  have hinj : ∀ j < steps.length, stream_of steps j = steps[i].stream → j = i := by
    intro j hj heq
    rw [stream_of, hat j hj] at heq
    have hj' : j < (steps.map MultiStep.stream).length := by simpa using hj
    have hi' : i < (steps.map MultiStep.stream).length := by simpa using hi
    have hsame : (steps.map MultiStep.stream)[j] = (steps.map MultiStep.stream)[i] := by
      simpa using heq
    exact hdistinct.getElem_inj_iff.mp hsame
  have hkey : stream_of steps i = steps[i].stream := by rw [stream_of, hat i hi]
  have hfirst :=
    project_each (f := fun m => [Part.step_prologue m.in_token m.position]) hdistinct hm
  have hlast := project_each (f := fun m => [Part.step_epilogue m.position]) hdistinct hm
  have hmid : project (stream_of steps i) (turn_events st steps (fun _ => false)
      (turns steps.length st.layers st.ms_sched)) = _ :=
    project_turns
      (fun c hc heq => hinj c.1 (turns_lt hpos st.ms_sched c hc) (heq.trans hkey)) fun _ => false
  rw [hkey, project_turns_eq hi hn hlayers, hat i hi, (phases_eq steps[i] st.layers).1] at hmid
  simp only [List.map_cons, List.map_nil, ← List.map_eq_flatMap] at hfirst hlast
  rw [project_append, project_append, hfirst, hlast, hmid]
  rfl

/-! ### Calls that succeed -/

/-- The calls that `decode_step_multi` does not refuse. -/
structure Accepted (st : Setup) (steps : List MultiStep) (results : Nat) : Prop where
  ready : st.gpu_ready = true
  layers : st.layers ≠ 0
  some_step : steps ≠ []
  results : results = steps.length
  in_range : ∀ m ∈ steps, m.stream < st.streams
  distinct : (steps.map MultiStep.stream).Nodup

section Success

variable (hnone : ∀ t, st.failure t = none)

include hnone

theorem enter_ends (s : Nat) (part : Part) : Ends (fun e => e.setup = st) (enter s part) := by
  rintro e rfl
  refine ⟨⟨⟩, { e with cur := s, trace := e.trace ++ [(s, part)] }, ?_, rfl⟩
  unfold enter
  simp only [hnone]

theorem layer_begin_ends (s L position : Nat) (ap : Bool) :
    Ends (fun e => e.setup = st) (layer_begin s L position ap) :=
  (enter_ends hnone s _).bind fun _ => Ends.get_bind fun _ _ => Ends.pure

theorem layer_moe_ends (s L : Nat) (ap : Bool) :
    Ends (fun e => e.setup = st) (layer_moe s L ap) :=
  (enter_ends hnone s _).bind fun _ => Ends.pure

theorem decode_step_ends (hready : st.gpu_ready = true) (hlayers : st.layers ≠ 0)
    (in_token position : Nat) :
    Ends (fun e => e.setup = st) (decode_step in_token position) := by
  refine Ends.get_bind fun e he => ?_
  dsimp only
  rw [he, if_neg (not_not.mpr hready), if_neg hlayers]
  have hlayer : ∀ ap L, Ends (fun e => e.setup = st) (run_layer e.cur L position ap) :=
    fun ap L => (layer_begin_ends hnone _ L position ap).bind fun _ =>
      (enter_ends hnone _ _).bind fun _ => layer_moe_ends hnone _ L _
  exact (enter_ends hnone _ _).bind fun _ => (Ends.foldlM hlayer _ _).bind fun _ =>
    enter_ends hnone _ _

theorem begin_at_ends (ap : Nat → Bool) (i L : Nat) :
    Ends (fun e => e.setup = st) (begin_at steps ap i L) :=
  (layer_begin_ends hnone _ _ _ _).bind fun _ => Ends.pure

theorem moe_at_ends (ap : Nat → Bool) (i L : Nat) :
    Ends (fun e => e.setup = st) (moe_at steps ap i L) :=
  (layer_moe_ends hnone _ _ _).bind fun _ => Ends.pure

theorem layer_loop_ends (sched : MsSched) (layers : Nat) (ap : Nat → Bool) :
    Ends (fun e => e.setup = st) (layer_loop steps sched layers ap) := by
  have hgate : ∀ i L, Ends (fun e => e.setup = st) (gate_at steps i L) :=
    fun i L => enter_ends hnone _ _
  unfold layer_loop
  split
  · refine Ends.foldlM (fun ap L => ?_) _ _
    exact (Ends.foldlM (fun ap i => begin_at_ends hnone ap i L) _ _).bind fun _ =>
      (Ends.forM fun i _ => hgate i L).bind fun _ =>
        Ends.foldlM (fun ap i => moe_at_ends hnone ap i L) _ _
  · refine (begin_at_ends hnone ap 0 0).bind fun ap => Ends.foldlM (fun ap L => ?_) _ _
    refine Ends.foldlM (fun ap i => (hgate i L).bind fun _ => Ends.bind ?_ fun ap =>
      moe_at_ends hnone ap i L) _ _
    -- the next unit of work, if there is one
    unfold begin_next
    split
    · exact begin_at_ends hnone ap (i + 1) L
    split
    · exact begin_at_ends hnone ap 0 (L + 1)
    · exact Ends.pure

theorem decode_step_multi_ends {results : Nat} (h : Accepted st steps results) :
    Ends (fun e => e.setup = st) (decode_step_multi steps results) := by
  refine Ends.get_bind fun e he => ?_
  have hrange : steps.find? (fun m => decide (st.streams ≤ m.stream)) = none := by
    rw [List.find?_eq_none]
    exact fun m hm => by simpa using h.in_range m hm
  dsimp only
  rw [he, if_neg (not_not.mpr h.ready), if_neg h.layers, if_neg h.some_step,
    if_neg (not_not.mpr h.results), hrange]
  dsimp only
  rw [if_neg (not_not.mpr h.distinct)]
  split
  · refine Ends.forM fun m hm => Ends.bind (Ends.get_bind fun e' he' => ?_) fun _ =>
      decode_step_ends hnone h.ready h.layers _ _
    have hin : ¬ e'.setup.streams ≤ m.stream := by
      rw [he']
      exact Nat.not_le.mpr (h.in_range m hm)
    rw [if_neg hin]
    exact fun _ _ => ⟨⟨⟩, _, rfl, he'⟩
  · exact (Ends.forM fun m _ => enter_ends hnone _ _).bind fun _ =>
      (layer_loop_ends hnone _ _ _).bind fun _ => Ends.forM fun m _ => enter_ends hnone _ _

end Success

/-! ### The projection -/

/-- A call with a repeated stream, or without layers, runs nothing. -/
theorem refused_trace (e : Engine) (results : Nat)
    (h : e.setup.layers = 0 ∨ ¬ (steps.map MultiStep.stream).Nodup) :
    finishes (decode_step_multi steps results) e = false ∧
      (final (decode_step_multi steps results) e).trace = e.trace := by
  have hrefused : ∃ error, decode_step_multi steps results e = .error error e := by
    rw [decode_step_multi, get_bind_apply]
    split
    · exact ⟨_, rfl⟩
    split
    · exact ⟨_, rfl⟩
    next hlayers =>
    split
    · exact ⟨_, rfl⟩
    split
    · exact ⟨_, rfl⟩
    cases steps.find? fun m => decide (e.setup.streams ≤ m.stream) with
    | some m => exact ⟨_, rfl⟩
    | none =>
      dsimp only
      rw [if_pos (h.resolve_left hlayers)]
      exact ⟨_, rfl⟩
  obtain ⟨error, hrun⟩ := hrefused
  unfold finishes final
  rw [hrun]
  exact ⟨rfl, rfl⟩

theorem same_step_parts {st' : Setup} {m : MultiStep} (hlayers : st'.layers = st.layers)
    (hengram : st'.has_layer m.stream = st.has_layer m.stream) :
    step_parts st' m = step_parts st m := by
  unfold step_parts layer_parts
  rw [hlayers, hengram]

/-- Whatever fails, what `decode_step_multi` runs for a stream is a first part of that stream's
    step; a call that succeeds runs the whole step, which is what `decode_step` runs on that stream
    alone, with the same `apply_post` at every phase. Where no part fails, every call that is not
    refused succeeds. -/
theorem multi_step_projection (e : Engine) (steps : List MultiStep) (results : Nat) :
    (Accepted e.setup steps results → (∀ t, e.setup.failure t = none) →
      finishes (decode_step_multi steps results) e = true) ∧
    ∃ events, (final (decode_step_multi steps results) e).trace = e.trace ++ events ∧
      ∀ m ∈ steps, project m.stream events <+: step_parts e.setup m ∧
        (finishes (decode_step_multi steps results) e = true →
          project m.stream events = step_parts e.setup m) ∧
        ∀ alone : Engine, alone.cur = m.stream → alone.setup.layers = e.setup.layers →
          alone.setup.has_layer m.stream = e.setup.has_layer m.stream →
          (alone.setup.gpu_ready = true → alone.setup.layers ≠ 0 →
            (∀ t, alone.setup.failure t = none) →
            finishes (decode_step m.in_token m.position) alone = true) ∧
          (finishes (decode_step m.in_token m.position) alone = true →
            (final (decode_step m.in_token m.position) alone).trace =
              alone.trace ++ (step_parts e.setup m).map fun part => (m.stream, part)) := by
  have halone : ∀ (m : MultiStep) (alone : Engine), alone.cur = m.stream →
      alone.setup.layers = e.setup.layers →
      alone.setup.has_layer m.stream = e.setup.has_layer m.stream →
      (alone.setup.gpu_ready = true → alone.setup.layers ≠ 0 →
        (∀ t, alone.setup.failure t = none) →
        finishes (decode_step m.in_token m.position) alone = true) ∧
      (finishes (decode_step m.in_token m.position) alone = true →
        (final (decode_step m.in_token m.position) alone).trace =
          alone.trace ++ (step_parts e.setup m).map fun part => (m.stream, part)) := by
    intro m alone hcur hlayers hengram
    refine ⟨fun hready hsome hnone => ?_, fun hfinish => ?_⟩
    · exact (decode_step_ends hnone hready hsome m.in_token m.position).finishes rfl
    · obtain ⟨part, _, hlog, hall⟩ := (decode_step_emits m).log_final ⟨rfl, hcur⟩
      rw [hlog, hall hfinish, same_step_parts hlayers hengram]
  refine ⟨fun haccepted hnone => (decode_step_multi_ends hnone haccepted).finishes rfl, ?_⟩
  -- a refused call runs nothing
  by_cases hrefused : e.setup.layers = 0 ∨ ¬ (steps.map MultiStep.stream).Nodup
  · obtain ⟨hno, htrace⟩ := refused_trace e results hrefused
    refine ⟨[], by rw [htrace, List.append_nil], fun m _ =>
      ⟨List.nil_prefix, fun hyes => ?_, halone m⟩⟩
    rw [hno] at hyes
    cases hyes
  · obtain ⟨hlayers, hdistinct⟩ := not_or.mp hrefused
    have hruns : Runs e.setup (decode_step_multi steps results) _ _ :=
      decode_step_multi_emits results
    obtain ⟨part, hpart, hlog, hall⟩ := hruns.log_final rfl
    have hproject : ∀ m ∈ steps,
        project m.stream (multi_trace e.setup steps) = step_parts e.setup m :=
      fun m hm => project_multi (Nat.pos_of_ne_zero hlayers) (not_not.mp hdistinct) hm
    refine ⟨part, hlog, fun m hm => ⟨?_, fun hfinish => ?_, halone m⟩⟩
    · rw [← hproject m hm]
      exact project_prefix hpart
    · rw [hall hfinish, hproject m hm]

/-- Two streams of two layers, the second layer of stream 1 with an engram. -/
def two_streams (ms_sched : MsSched) : Engine where
  setup := { layers := 2, streams := 2, ms_sched, has_layer := fun s L => s == 1 && L == 1 }

def two_steps : List MultiStep := [⟨1, 7, 3⟩, ⟨0, 9, 5⟩]

/-- The call runs the whole step of both streams. -/
def RunsBoth (e : Engine) : Prop :=
  finishes (decode_step_multi two_steps 2) e = true ∧ ∀ m ∈ two_steps,
    project m.stream (final (decode_step_multi two_steps 2) e).trace = step_parts e.setup m

theorem multi_step_projection_two : RunsBoth (two_streams .Pipeline) ∧
    RunsBoth (two_streams .Interleave) ∧ RunsBoth (two_streams .PingPong) := by
  have hruns : ∀ ms_sched, RunsBoth (two_streams ms_sched) := by
    intro ms_sched
    have haccepted : Accepted (two_streams ms_sched).setup two_steps 2 := by
      refine ⟨rfl, Nat.succ_ne_zero 1, List.cons_ne_nil _ _, rfl, ?_, by decide⟩
      show ∀ m ∈ two_steps, m.stream < 2
      decide
    obtain ⟨hends, events, htrace, hparts⟩ :=
      multi_step_projection (two_streams ms_sched) two_steps 2
    have hfinish := hends haccepted fun _ => rfl
    refine ⟨hfinish, fun m hm => ?_⟩
    rw [htrace]
    exact (hparts m hm).2.1 hfinish
  exact ⟨hruns .Pipeline, hruns .Interleave, hruns .PingPong⟩

/-- Two streams in a pipeline of one layer: the second is begun before the first waits. -/
example : turns 2 1 .Pipeline =
    [(0, .begin 0), (0, .gate 0), (1, .begin 0), (0, .moe 0), (1, .gate 0), (1, .moe 0)] := by decide

end CachedMoe.Runtime.Schedule
