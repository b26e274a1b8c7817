import CachedMoe.Runtime.Decode

/-! # The speculative step

    `Engine::speculative_step` of `runtime/engine.cpp`: the draft, the verification batch of the
    root and its drafts, the acceptance, and the commit of the rows that are emitted.

    The draft model, the comparisons of scores and the kernels of the batch are given, as in the
    decode step. Timings, diagnostics' texts and the score readout are left out. -/

namespace CachedMoe.Runtime

open CachedMoe KvStore

/-- `gpu::kMgtMaxM`, the columns of a batch. -/
def kMgtMaxM : Nat := 6

/-- `layout::kDsparkCaptureMask`: a bit for every layer the draft reads. -/
def kDsparkCaptureMask : UInt8 := 7

/-- `cfg_.speculation` and the switches of `cfg_.gpu` that the step reads. -/
structure SpeculationConfig where
  /-- The draft runtime is up and stream 0 is selected. -/
  enabled : Bool := true
  max_draft : Nat := 5
  accept_topk : Nat := 1
  min_confidence : Bool := false
  spec_gpu_readout : Bool := true
  draft_trim_tail : Bool := false
  deriving Repr, DecidableEq

/-! ### Answers -/

/-- A row of the draft's output; whether its confidence is finite, and at least the minimum. -/
structure DraftRow where
  token : Nat
  finite : Bool := true
  confident : Bool := true
  deriving Repr, DecidableEq

/-- The rank of a draft token in the scores of its row. -/
structure DraftRank where
  /-- The header is that of the row and of the token. -/
  header : Bool := true
  /-- A score is not finite. -/
  error : Bool := false
  better : Nat := 0
  deriving Repr, DecidableEq

structure BatchAnswer where
  slabs : Nat → Result Unit := fun _ => .ok ()
  /-- What comes before the history is touched. -/
  setup : Result Unit := .ok ()
  engram : Result Unit := .ok ()
  run_layer_batch : Nat → Result Unit := fun _ => .ok ()
  /-- What layer `L` leaves for row `j`. -/
  row : (L j : Nat) → LayerRow := fun _ _ => {}
  tail : Result Unit := .ok ()

structure SpecAnswer where
  /-- The draft runtime takes the window, and later the committed rows. -/
  seed : Result Unit := .ok ()
  append : Result Unit := .ok ()
  draft : Result (List DraftRow) := .ok []
  init_batch : Result Unit := .ok ()
  batch : BatchAnswer := {}
  rank : Nat → DraftRank := fun _ => {}
  argmax : Nat → Nat := fun _ => 0
  /-- The token sampled from a row. -/
  sample : Nat → Result Nat := fun _ => .ok 0
  diagnostics : Result Unit := .ok ()

/-! ### The draft -/

/-- The positions of the draft window that end in `pos`. -/
def draft_first (pos : Nat) : Nat := if pos ≥ kSlidingWindow - 1 then pos - (kSlidingWindow - 1) else 0

def captured (w : DraftWindow) (position : Nat) : Bool :=
  (w (position % kSlidingWindow)).position = position &&
    (w (position % kSlidingWindow)).mask = kDsparkCaptureMask

def seed_draft (a : SpecAnswer) (e : DecodeStream) (pos : Nat) : Result Unit × DecodeStream :=
  if e.rest.dspark_next = pos + 1 then (.ok (), e)
  else
    let first := draft_first pos
    if ¬ (List.range' first (pos + 1 - first)).all (captured e.rest.draft) then
      (fail .FailedPrecondition
        "DSpark needs main hidden means for the committed 128-token window", e)
    else
      let e := { e with rest := { e.rest with dspark_next := 0 } }
      match a.seed with
      | .error err => (.error err, e)
      | .ok () => (.ok (), { e with rest := { e.rest with dspark_next := pos + 1 } })

/-- `draft_prefix_from_confidence`. -/
def draft_prefix_from_confidence (rows : List DraftRow) : Result Nat :=
  if rows.length > 5 then
    fail .InvalidArgument "draft confidence needs at most five rows and a finite threshold"
  else if ¬ rows.all DraftRow.finite then fail .InvalidArgument "nonfinite draft confidence"
  else .ok (rows.takeWhile DraftRow.confident).length

/-- The tokens of a batch: the root, and the drafts that are verified. -/
def propose (cfg : SpeculationConfig) (a : SpecAnswer) (root k : Nat) : Result (List Nat) :=
  if k = 0 then .ok [root]
  else
    match a.draft with
    | .error err => .error err
    | .ok rows =>
      let rows := rows.take k
      if cfg.min_confidence then
        match draft_prefix_from_confidence rows with
        | .error err => .error err
        | .ok k => .ok (root :: (rows.take k).map DraftRow.token)
      else .ok (root :: rows.map DraftRow.token)

/-! ### Snapshots for the batch -/

/-- The slots of a batch of `m` at `p0`. -/
def batch_slots (window p0 m : Nat) : List Nat := (List.range m).map fun i => (p0 + i) % window

/-- The ring is resolved first. -/
def snapshot_batch_ring (c : TextConfig) (kv : KvStore) (p0 m : Nat) :
    Result RingSnapshot × KvStore :=
  if m = 0 ∨ m > kMgtMaxM then (fail .InvalidArgument "snapshot of 0 positions", kv)
  else
    let kv := kv.resolve_ring p0
    (kv.snapshot_ring (batch_slots c.sliding_window p0 m) (List.range c.num_hidden_layers), kv)

/-- The part of a snapshot that has the slots at the indices `take`. -/
def sub_snapshot (s : RingSnapshot) (take : List Nat) : RingSnapshot where
  latent_dim := s.latent_dim
  slot := take.map fun i => s.slot.getD i 0
  layer := s.layer
  position := take.map fun i => s.position.getD i 0
  val := (List.range s.layer.length).flatMap fun li => take.flatMap fun i =>
    snapshot_row s.val (li * s.slot.length + i) s.latent_dim
  scale := (List.range s.layer.length).flatMap fun li => take.flatMap fun i =>
    snapshot_row s.scale (li * s.slot.length + i) (s.latent_dim / 32)

/-- `history_.resize(n)`. -/
def resize (history : List Nat) (n : Nat) : List Nat :=
  history.take n ++ List.replicate (n - history.length) 0

/-- The slots of the rows after `accepted` are what they were before the batch. -/
def restore_batch_ring (e : DecodeStream) (snap : RingSnapshot) (p0 accepted m : Nat) :
    Result Unit × DecodeStream :=
  if accepted + 1 ≥ m then (.ok (), e)
  else
    match e.kv.restore_ring (sub_snapshot snap (List.range' (accepted + 1) (m - (accepted + 1)))) with
    | (.error err, kv) => (.error err, { e with kv := kv })
    | (.ok (), kv) =>
      (.ok (), { e with
        kv := kv
        history := if e.history.length > p0 + accepted + 2 then resize e.history (p0 + accepted + 2)
          else e.history })

/-- The draft slots of a batch. -/
def backup_draft (w : DraftWindow) (p0 m : Nat) : List DraftSlot :=
  (List.range m).map fun j => w ((p0 + j) % kSlidingWindow)

/-- The slots of the rows from `n` on are those of the backup. -/
def restore_draft (w : DraftWindow) (before : List DraftSlot) (p0 n m : Nat) : DraftWindow :=
  (List.range' n (m - n)).foldl
    (fun w j => Function.update w ((p0 + j) % kSlidingWindow) (before.getD j {})) w

/-! ### The batch -/

/-- A layer's members of the open groups, a row of `D` floats for every token. -/
structure BatchCarry where
  layer : Nat
  kv : List UInt32
  score : List UInt32
  deriving Repr, DecidableEq

/-- `history_[p0 + m] = tokens[m]`. -/
def record_tokens (history : List Nat) (p0 : Nat) (tokens : List Nat) : List Nat :=
  tokens.zipIdx.foldl (fun h t => h.set (p0 + t.2) t.1)
    (history ++ List.replicate (p0 + tokens.length - history.length) 0)

/-- What `run_layer_batch` leaves for the rows of a layer. -/
def put_batch_layer (c : TextConfig) (a : BatchAnswer) (e : DecodeStream) (L p0 M : Nat) :
    DecodeStream :=
  { e with
    kv := (List.range M).foldl (fun kv j =>
      (kv.put_ring_row L (p0 + j) (a.row L j)).put_compressed c L (p0 + j) (a.row L j)) e.kv
    rest := { e.rest with
      draft := (List.range M).foldl
        (fun w j => capture_draft_hidden c L (p0 + j) (a.row L j).hidden w) e.rest.draft
      rows := fun q => if p0 ≤ q ∧ q < p0 + M then Function.update (e.rest.rows q) L true
        else e.rest.rows q } }

/-- What the batch read back of the open groups of a layer. -/
def batch_carry (c : TextConfig) (a : BatchAnswer) (M L : Nat) : BatchCarry where
  layer := L
  kv := (List.range M).flatMap fun j => Region.read (a.row L j).carry_kv 0 c.head_dim
  score := (List.range M).flatMap fun j => Region.read (a.row L j).carry_score 0 c.head_dim

/-- The layers of a batch in order; the carries are those of the layers that carry. -/
def run_batch_layers (c : TextConfig) (a : BatchAnswer) (p0 M : Nat) :
    List Nat → DecodeStream → Result (List BatchCarry) × DecodeStream
  | [], e => (.ok [], e)
  | L :: Ls, e =>
    match a.run_layer_batch L with
    | .error err => (.error err, e)
    | .ok () =>
      match run_batch_layers c a p0 M Ls (put_batch_layer c a e L p0 M) with
      | (.error err, e) => (.error err, e)
      | (.ok carries, e) =>
        (.ok (if c.carries L then batch_carry c a M L :: carries else carries), e)

/-- The history has the tokens of the batch, and no row of theirs is there. -/
def begin_batch (a : BatchAnswer) (e : DecodeStream) (p0 : Nat) (tokens : List Nat) :
    DecodeStream where
  kv := { e.kv with allocate_slabs := a.slabs }
  history := record_tokens e.history p0 tokens
  rest := { e.rest with
    rows := fun q => if p0 ≤ q ∧ q < p0 + tokens.length then fun _ => false else e.rest.rows q }

def forward_batch (c : TextConfig) (a : BatchAnswer) (e : DecodeStream) (p0 : Nat)
    (tokens : List Nat) : Result (List BatchCarry) × DecodeStream :=
  let M := tokens.length
  if ¬ e.rest.gpu_ready then (fail .FailedPrecondition "call init_gpu() first", e)
  else if M = 0 ∨ M > kMgtMaxM then
    (fail .InvalidArgument s!"forward_batch takes 1..{kMgtMaxM} tokens, not {M}", e)
  else if ¬ e.rest.produce_ced then
    (fail .FailedPrecondition ("forward_batch produces design §7.4's state itself; the LOADED " ++
      "per-step seeding has no batch form (set_produce_ced(true))"), e)
  else if p0 + M > max_context e then
    (fail .ResourceExhausted (s!"a batch at {p0}..{p0 + M - 1} past the " ++
      s!"{max_context e}-position context"), e)
  else
    match a.setup with
    | .error err => (.error err, e)
    | .ok () =>
      let e := begin_batch a e p0 tokens
      match a.engram with
      | .error err => (.error err, e)
      | .ok () =>
        match prepare_ced c e.kv (p0 + M - 1) with
        | (.error err, kv) => (.error err, { e with kv := kv })
        | (.ok (), kv) =>
          let e := { e with kv := kv }
          match tokens.find? (c.vocab_size ≤ ·) with
          | some tok => (fail .OutOfRange s!"token {tok} >= vocab {c.vocab_size}", e)
          | none =>
            match run_batch_layers c a p0 M (List.range c.num_hidden_layers) e with
            | (.error err, e) => (.error err, e)
            | (.ok carries, e) =>
              match a.tail with
              | .error err => (.error err, e)
              | .ok () => (.ok carries, { e with kv := e.kv.mark_ring_written p0 M })

/-! ### Acceptance -/

/-- The accepted prefix of the drafts `ds`, the first of which is in row `j`. -/
def accept_loop (cfg : SpeculationConfig) (vocab : Nat) (rank : Nat → DraftRank) :
    (j : Nat) → List Nat → Result Nat
  | _, [] => .ok 0
  | j, d :: ds =>
    let r := rank j
    if cfg.spec_gpu_readout ∧ ¬ r.header then
      fail .Internal "GPU draft rank header does not match verification row"
    else if ¬ cfg.spec_gpu_readout ∧ vocab ≤ d then
      fail .OutOfRange "draft token outside vocabulary"
    else if r.error then
      fail .InvalidArgument (if cfg.spec_gpu_readout then
        "invalid draft token or nonfinite verification logit" else "nonfinite verification logit")
    else if r.better ≥ cfg.accept_topk then .ok 0
    else
      match accept_loop cfg vocab rank (j + 1) ds with
      | .error err => .error err
      | .ok a => .ok (a + 1)

/-- The scores of the rows are on the host unless the GPU ranks the drafts. -/
def accept_drafts (cfg : SpeculationConfig) (vocab : Nat) (rank : Nat → DraftRank)
    (drafts : List Nat) : Result Nat :=
  if ¬ cfg.spec_gpu_readout ∧ (vocab = 0 ∨ cfg.accept_topk = 0 ∨ cfg.accept_topk > vocab) then
    fail .InvalidArgument "top-K acceptance requires a [k+1,vocab] matrix"
  else accept_loop cfg vocab rank 0 drafts

/-- The rows that are emitted: the accepted drafts and one token more, up to the first stop. -/
def emit_rows (stops : List Nat) (last : Result Nat) : List Nat → Result (List Nat)
  | [] =>
    match last with
    | .error err => .error err
    | .ok t => .ok [t]
  | d :: ds =>
    if d ∈ stops then .ok [d]
    else
      match emit_rows stops last ds with
      | .error err => .error err
      | .ok ts => .ok (d :: ts)

/-! ### The commit -/

/-- The members of the retained rows, written over the carry that was restored. -/
def put_batch_carry (c : TextConfig) (p0 n : Nat) (kv : KvStore) (b : BatchCarry) : KvStore :=
  (List.range n).foldl (fun kv j =>
    kv.put_carry_slot b.layer ((p0 + j) % c.compress_ratio b.layer) c.head_dim
      ((b.kv.drop (j * c.head_dim)).take c.head_dim)
      ((b.score.drop (j * c.head_dim)).take c.head_dim)) kv

/-- What the step took before the batch. -/
structure BatchBackup where
  snap : RingSnapshot
  draft : List DraftSlot
  carry : KvRowBackup

/-- The draft runtime gets the committed rows. -/
def append_draft (a : SpecAnswer) (e : DecodeStream) (p0 n : Nat) : Result Unit × DecodeStream :=
  if e.rest.dspark_next ≠ 0 ∧ p0 ≠ e.rest.dspark_next then
    (fail .FailedPrecondition "DSpark committed hidden positions are not contiguous", e)
  else
    match a.append with
    | .error err => (.error err, e)
    | .ok () => (.ok (), { e with rest := { e.rest with dspark_next := p0 + n } })

/-- The rows from `n` on are taken back, and the first `n` become the context. -/
def commit_rows (c : TextConfig) (a : SpecAnswer) (b : BatchBackup) (carries : List BatchCarry)
    (p0 n m : Nat) (e : DecodeStream) : Result Unit × DecodeStream :=
  match restore_batch_ring e b.snap p0 (n - 1) m with
  | (.error err, e) => (.error err, e)
  | (.ok (), e) =>
    let e := { e with rest := { e.rest with draft := restore_draft e.rest.draft b.draft p0 n m } }
    match e.kv.restore_carry b.carry with
    | (.error err, kv) => (.error err, { e with kv := kv })
    | (.ok (), kv) =>
      let kv := carries.foldl (put_batch_carry c p0 n) kv
      let history := resize e.history (p0 + n)
      match prepare_ced c (kv.resolve_ring (p0 + n)) (p0 + n - 1) with
      | (.error err, kv) => (.error err, { e with kv := kv, history := history })
      | (.ok (), kv) =>
        match append_draft a { e with kv := kv, history := history } p0 n with
        | (.error err, e) => (.error err, e)
        | (.ok (), e) => (a.diagnostics, e)

/-! ### The step -/

section Step

variable (c : TextConfig) (steps : Nat → StepAnswer) (cfg : SpeculationConfig) (greedy : Bool)
  (a : SpecAnswer)

/-- What the verification starts from: its tokens and the backups. -/
structure Verification where
  input : List Nat
  backup : BatchBackup

/-- The step up to the verification. -/
def start_verification (e : DecodeStream) (root max_new : Nat) :
    Result Verification × DecodeStream :=
  let p0 := e.history.length
  if ¬ cfg.enabled ∨ ¬ e.rest.produce_ced ∨ p0 = 0 ∨ max_new = 0 then
    (fail .FailedPrecondition
      "DSpark step requires an initialized stream-0 session and nonempty context", e)
  else if p0 + 1 ≥ max_context e then (fail .FailedPrecondition "DSpark context is full", e)
  else
    let k := min (min cfg.max_draft (max_new - 1)) (max_context e - p0 - 1)
    match seed_draft a e (p0 - 1) with
    | (.error err, e) => (.error err, e)
    | (.ok (), e) =>
      match propose cfg a root k with
      | .error err => (.error err, e)
      | .ok input =>
        match a.init_batch with
        | .error err => (.error err, e)
        | .ok () =>
          match snapshot_batch_ring c e.kv p0 input.length with
          | (.error err, kv) => (.error err, { e with kv := kv })
          | (.ok snap, kv) =>
            let e := { e with kv := kv }
            match kv.backup_rows p0 p0 with
            | .error err => (.error err, e)
            | .ok carry =>
              (.ok { input, backup := {
                snap, draft := backup_draft e.rest.draft p0 input.length, carry } }, e)

/-- The batch and what comes after it, without the reset on an error. -/
def verify_and_commit (e : DecodeStream) (stops : List Nat) (v : Verification) :
    Result (List Nat) × DecodeStream :=
  let p0 := e.history.length
  let m := v.input.length
  match forward_batch c a.batch e p0 v.input with
  | (.error err, e) => (.error err, e)
  | (.ok carries, e) =>
    match accept_drafts cfg c.vocab_size a.rank v.input.tail with
    | .error err => (.error err, e)
    | .ok accepted =>
      let last := if greedy then .ok (a.argmax accepted) else a.sample accepted
      match emit_rows stops last (v.input.tail.take accepted) with
      | .error err => (.error err, e)
      | .ok rows =>
        match commit_rows c a v.backup carries p0 rows.length m e with
        | (.error err, e) => (.error err, e)
        | (.ok (), e) => (.ok rows, e)

/-- An error once the verification has started empties the context. -/
def verify (e : DecodeStream) (stops : List Nat) (v : Verification) :
    Result (List Nat) × DecodeStream :=
  match verify_and_commit c cfg greedy a e stops v with
  | (.error err, e) => (.error err, reset_context (stream_parts c steps) e)
  | (.ok rows, e) => (.ok rows, e)

/-- The answer is the tokens of the emitted rows. -/
def speculative_step (e : DecodeStream) (root max_new : Nat) (stops : List Nat) :
    Result (List Nat) × DecodeStream :=
  match start_verification c cfg a (tick e) root max_new with
  | (.error err, e) => (.error err, e)
  | (.ok v, e) => verify c steps cfg greedy a e stops v

end Step

/-! ### What is emitted -/

/-- A stop ends the rows; all but the last are drafts. -/
theorem emit_rows_spec {stops : List Nat} {last : Result Nat} {ds rows : List Nat}
    (h : emit_rows stops last ds = .ok rows) :
    rows ≠ [] ∧ rows.length ≤ ds.length + 1 ∧ rows.dropLast = ds.take (rows.length - 1) ∧
      ∀ t ∈ rows.dropLast, t ∉ stops := by
  induction ds generalizing rows with
  | nil =>
    unfold emit_rows at h
    cases last with
    | error err => cases h
    | ok t =>
      cases h
      exact ⟨by simp, by simp, rfl, by simp⟩
  | cons d ds ih =>
    rw [emit_rows] at h
    split at h
    · cases h
      exact ⟨by simp, by simp, rfl, by simp⟩
    · next hstop =>
      cases hrest : emit_rows stops last ds with
      | error err =>
        rw [hrest] at h
        cases h
      | ok ts =>
        rw [hrest] at h
        cases h
        obtain ⟨hne, hlen, hdrop, hstops⟩ := ih hrest
        have hpos := List.length_pos_iff.mpr hne
        refine ⟨by simp, by simpa using hlen, ?_, ?_⟩
        · rw [List.dropLast_cons_of_ne_nil hne, hdrop, List.length_cons, Nat.add_sub_cancel]
          obtain ⟨n, hn⟩ := Nat.exists_eq_add_of_lt hpos
          rw [hn, Nat.zero_add, Nat.add_sub_cancel, List.take_succ_cons]
        · rw [List.dropLast_cons_of_ne_nil hne]
          intro t ht
          rcases List.mem_cons.mp ht with rfl | ht
          · exact hstop
          · exact hstops t ht

theorem accept_loop_le {cfg : SpeculationConfig} {vocab : Nat} {rank : Nat → DraftRank}
    {ds : List Nat} {j a : Nat} (h : accept_loop cfg vocab rank j ds = .ok a) : a ≤ ds.length := by
  induction ds generalizing j a with
  | nil =>
    cases h
    exact Nat.le_refl 0
  | cons d ds ih =>
    rw [accept_loop] at h
    split at h
    · cases h
    split at h
    · cases h
    split at h
    · cases h
    split at h
    · cases h
      exact Nat.zero_le _
    cases hrest : accept_loop cfg vocab rank (j + 1) ds with
    | error err =>
      rw [hrest] at h
      cases h
    | ok a' =>
      rw [hrest] at h
      cases h
      exact Nat.succ_le_succ (ih hrest)

theorem accept_drafts_le {cfg : SpeculationConfig} {vocab : Nat} {rank : Nat → DraftRank}
    {drafts : List Nat} {a : Nat} (h : accept_drafts cfg vocab rank drafts = .ok a) :
    a ≤ drafts.length := by
  unfold accept_drafts at h
  split at h
  · cases h
  · exact accept_loop_le h

/-- A batch has the root and at most `k` drafts. -/
theorem propose_spec {cfg : SpeculationConfig} {a : SpecAnswer} {root k : Nat} {input : List Nat}
    (h : propose cfg a root k = .ok input) : ∃ drafts, input = root :: drafts ∧ drafts.length ≤ k := by
  unfold propose at h
  split at h
  · cases h
    exact ⟨[], rfl, Nat.zero_le k⟩
  cases hdraft : a.draft with
  | error err =>
    rw [hdraft] at h
    cases h
  | ok rows =>
    rw [hdraft] at h
    dsimp only at h
    split at h
    · cases hpre : draft_prefix_from_confidence (rows.take k) with
      | error err =>
        rw [hpre] at h
        cases h
      | ok k' =>
        rw [hpre] at h
        cases h
        refine ⟨_, rfl, ?_⟩
        rw [List.length_map, List.length_take, List.length_take]
        omega
    · cases h
      refine ⟨_, rfl, ?_⟩
      rw [List.length_map, List.length_take]
      omega

/-! ### The history -/

/-- A batch behind the history appends its tokens. -/
theorem record_tokens_end (history tokens : List Nat) :
    record_tokens history history.length tokens = history ++ tokens := by
  have hset : ∀ (done rest : List Nat), (rest.zipIdx done.length).foldl
      (fun h t => h.set (history.length + t.2) t.1)
      (history ++ done ++ List.replicate rest.length 0) = history ++ (done ++ rest) := by
    intro done rest
    induction rest generalizing done with
    | nil => simp
    | cons t rest ih =>
      rw [List.zipIdx_cons, List.foldl_cons, List.length_cons, List.replicate_succ]
      have hone : (history ++ done ++ 0 :: List.replicate rest.length 0).set
          (history.length + done.length) t = history ++ (done ++ [t]) ++
            List.replicate rest.length 0 := by
        rw [← List.length_append, List.set_append_right _ _ (Nat.le_refl _), Nat.sub_self]
        simp
      have hlen : done.length + 1 = (done ++ [t]).length := by simp
      rw [hone, hlen, ih (done ++ [t])]
      simp
  have hroom : history.length + tokens.length - history.length = tokens.length := by omega
  have hall := hset [] tokens
  rw [List.append_nil] at hall
  rw [record_tokens, hroom]
  exact hall

theorem resize_take {history : List Nat} {n : Nat} (h : n ≤ history.length) :
    resize history n = history.take n := by
  rw [resize, Nat.sub_eq_zero_of_le h, List.replicate_zero, List.append_nil]

/-! ### Frames -/

section Frames

variable {c : TextConfig} {steps : Nat → StepAnswer} {cfg : SpeculationConfig} {greedy : Bool}
  {a : SpecAnswer} {e : DecodeStream}

theorem put_batch_layer_keeps (b : BatchAnswer) (e : DecodeStream) (L p0 M : Nat) :
    KeepsStream e (put_batch_layer c b e L p0 M) ∧
      (put_batch_layer c b e L p0 M).history = e.history := by
  have hkv : ∀ (js : List Nat) (kv : KvStore),
      (js.foldl (fun kv j => (kv.put_ring_row L (p0 + j) (b.row L j)).put_compressed c L (p0 + j)
        (b.row L j)) kv).cfg = kv.cfg ∧
      (js.foldl (fun kv j => (kv.put_ring_row L (p0 + j) (b.row L j)).put_compressed c L (p0 + j)
        (b.row L j)) kv).valid = kv.valid := by
    intro js
    induction js with
    | nil => exact fun kv => ⟨rfl, rfl⟩
    | cons j js ih =>
      intro kv
      have hput := put_compressed_keeps (kv.put_ring_row L (p0 + j) (b.row L j)) c L (p0 + j)
        (b.row L j)
      exact ⟨(ih _).1.trans hput.1, (ih _).2.trans hput.2.1⟩
  obtain ⟨hcfg, hvalid⟩ := hkv (List.range M) e.kv
  exact ⟨⟨hcfg, hvalid, rfl, rfl⟩, rfl⟩

theorem run_batch_layers_keeps (b : BatchAnswer) (p0 M : Nat) (Ls : List Nat) (e : DecodeStream) :
    KeepsStream e (run_batch_layers c b p0 M Ls e).2 ∧
      (run_batch_layers c b p0 M Ls e).2.history = e.history := by
  induction Ls generalizing e with
  | nil => exact ⟨.refl e, rfl⟩
  | cons L Ls ih =>
    rw [run_batch_layers]
    cases b.run_layer_batch L with
    | error err => exact ⟨.refl e, rfl⟩
    | ok _ =>
      dsimp only
      have hput := put_batch_layer_keeps (c := c) b e L p0 M
      have hrest := ih (put_batch_layer c b e L p0 M)
      generalize run_batch_layers c b p0 M Ls (put_batch_layer c b e L p0 M) = res at hrest
      obtain ⟨r, e₁⟩ := res
      have hkeeps := hput.1.trans hrest.1
      have hhistory := hrest.2.trans hput.2
      cases r with
      | error err => exact ⟨hkeeps, hhistory⟩
      | ok carries => exact ⟨hkeeps, hhistory⟩

theorem run_batch_layers_ok {b : BatchAnswer} {p0 M : Nat} {Ls : List Nat} {e : DecodeStream}
    {carries : List BatchCarry} (h : (run_batch_layers c b p0 M Ls e).1 = .ok carries) :
    (run_batch_layers c b p0 M Ls e).2 = Ls.foldl (fun e L => put_batch_layer c b e L p0 M) e ∧
      carries = (Ls.filter c.carries).map (batch_carry c b M) := by
  induction Ls generalizing e carries with
  | nil =>
    cases h
    exact ⟨rfl, rfl⟩
  | cons L Ls ih =>
    rw [run_batch_layers] at h ⊢
    cases hlayer : b.run_layer_batch L with
    | error err =>
      rw [hlayer] at h
      cases h
    | ok _ =>
      rw [hlayer] at h
      dsimp only at h ⊢
      have hrest := @ih (put_batch_layer c b e L p0 M)
      generalize run_batch_layers c b p0 M Ls (put_batch_layer c b e L p0 M) = res at h hrest ⊢
      obtain ⟨r, e₁⟩ := res
      cases r with
      | error err => cases h
      | ok carries' =>
        cases h
        obtain ⟨hstate, hcarries⟩ := hrest rfl
        refine ⟨hstate, ?_⟩
        rw [hcarries]
        by_cases hL : c.carries L
        · rw [if_pos hL, List.filter_cons_of_pos hL, List.map_cons]
        · rw [if_neg hL, List.filter_cons_of_neg hL]

theorem begin_batch_keeps (b : BatchAnswer) (e : DecodeStream) (p0 : Nat) (tokens : List Nat) :
    KeepsStream e (begin_batch b e p0 tokens) :=
  ⟨rfl, rfl, rfl, rfl⟩

theorem forward_batch_keeps (b : BatchAnswer) (e : DecodeStream) (p0 : Nat) (tokens : List Nat) :
    KeepsStream e (forward_batch c b e p0 tokens).2 := by
  unfold forward_batch
  dsimp only
  split
  · exact .refl e
  split
  · exact .refl e
  split
  · exact .refl e
  split
  · exact .refl e
  -- up to here nothing was written
  cases b.setup with
  | error err => exact .refl e
  | ok _ =>
    have hbegin := begin_batch_keeps b e p0 tokens
    cases b.engram with
    | error err => exact hbegin
    | ok _ =>
      dsimp only
      have hkv := @prepare_ced_keeps (begin_batch b e p0 tokens).kv c (p0 + tokens.length - 1)
      generalize prepare_ced c (begin_batch b e p0 tokens).kv (p0 + tokens.length - 1) = res at hkv
      obtain ⟨r, kv⟩ := res
      have hprep : KeepsStream e { begin_batch b e p0 tokens with kv := kv } :=
        hbegin.trans ⟨hkv.cfg, hkv.valid, rfl, rfl⟩
      cases r with
      | error err => exact hprep
      | ok _ =>
        dsimp only
        split
        · exact hprep
        have hlayers := run_batch_layers_keeps (c := c) b p0 tokens.length
          (List.range c.num_hidden_layers) { begin_batch b e p0 tokens with kv := kv }
        generalize run_batch_layers c b p0 tokens.length _ _ = res at hlayers
        obtain ⟨r, e₁⟩ := res
        have hrun := hprep.trans hlayers.1
        cases r with
        | error err => exact hrun
        | ok carries =>
          cases b.tail with
          | error err => exact hrun
          | ok _ => exact ⟨hrun.cfg, hrun.valid, hrun.gpu_ready, hrun.produce_ced⟩

/-- A batch that goes through: the counts are those of its last row, every layer leaves its rows,
    and the ring's slots are marked. -/
theorem forward_batch_ok {b : BatchAnswer} {e : DecodeStream} {p0 : Nat} {tokens : List Nat}
    {carries : List BatchCarry} (h : (forward_batch c b e p0 tokens).1 = .ok carries) :
    tokens.length ≤ kMgtMaxM ∧ p0 + tokens.length ≤ max_context e ∧
      ∃ kv, prepare_ced c (begin_batch b e p0 tokens).kv (p0 + tokens.length - 1) = (.ok (), kv) ∧
        carries = ((List.range c.num_hidden_layers).filter c.carries).map
          (batch_carry c b tokens.length) ∧
        (forward_batch c b e p0 tokens).2 =
          (let e' := (List.range c.num_hidden_layers).foldl
            (fun e L => put_batch_layer c b e L p0 tokens.length)
            { begin_batch b e p0 tokens with kv := kv }
          { e' with kv := e'.kv.mark_ring_written p0 tokens.length }) := by
  unfold forward_batch at h ⊢
  dsimp only at h ⊢
  split at h
  · cases h
  next hready =>
  split at h
  · cases h
  next hcount =>
  split at h
  · cases h
  next hced =>
  split at h
  · cases h
  next hroom =>
  rw [if_neg hready, if_neg hcount, if_neg hced, if_neg hroom]
  refine ⟨by omega, by omega, ?_⟩
  -- past the guards only the answers of the batch can fail
  cases hsetup : b.setup with
  | error err =>
    rw [hsetup] at h
    cases h
  | ok _ =>
    rw [hsetup] at h
    dsimp only at h ⊢
    cases hengram : b.engram with
    | error err =>
      rw [hengram] at h
      cases h
    | ok _ =>
      rw [hengram] at h
      dsimp only at h ⊢
      generalize prepare_ced c (begin_batch b e p0 tokens).kv (p0 + tokens.length - 1) = res at h ⊢
      obtain ⟨r, kv⟩ := res
      cases r with
      | error err => cases h
      | ok _ =>
        refine ⟨kv, rfl, ?_⟩
        dsimp only at h ⊢
        split at h
        · cases h
        have hlayers := @run_batch_layers_ok c b p0 tokens.length (List.range c.num_hidden_layers)
          { begin_batch b e p0 tokens with kv := kv }
        generalize run_batch_layers c b p0 tokens.length _ _ = res at h hlayers ⊢
        obtain ⟨r, e₁⟩ := res
        cases r with
        | error err => cases h
        | ok carries' =>
          dsimp only at h ⊢
          cases htail : b.tail with
          | error err =>
            rw [htail] at h
            cases h
          | ok _ =>
            rw [htail] at h
            cases h
            obtain ⟨hstate, hcarries⟩ := hlayers rfl
            refine ⟨hcarries, ?_⟩
            rw [← hstate]

/-! ### Taking back -/

theorem restore_ring_keeps (kv : KvStore) (s : RingSnapshot) :
    ∃ val scale slots, (kv.restore_ring s).2 =
      { kv with win_val := val, win_scale := scale, slot_pos := slots } := by
  unfold KvStore.restore_ring
  dsimp only
  split
  · exact ⟨_, _, _, rfl⟩
  split
  · exact ⟨_, _, _, rfl⟩
  split
  · exact ⟨_, _, _, rfl⟩
  split
  · exact ⟨_, _, _, rfl⟩
  · exact ⟨_, _, _, rfl⟩

theorem put_batch_carry_keeps (p0 n : Nat) (kv : KvStore) (carries : List BatchCarry) :
    ∃ state, carries.foldl (put_batch_carry c p0 n) kv = { kv with state := state } := by
  have hone : ∀ (b : BatchCarry) (js : List Nat) (kv : KvStore), ∃ state,
      js.foldl (fun kv j => kv.put_carry_slot b.layer ((p0 + j) % c.compress_ratio b.layer)
        c.head_dim ((b.kv.drop (j * c.head_dim)).take c.head_dim)
        ((b.score.drop (j * c.head_dim)).take c.head_dim)) kv = { kv with state := state } := by
    intro b js
    induction js with
    | nil => exact fun kv => ⟨kv.state, rfl⟩
    | cons j js ih =>
      intro kv
      rw [List.foldl_cons]
      obtain ⟨state, hstate⟩ := ih (kv.put_carry_slot b.layer ((p0 + j) % c.compress_ratio b.layer)
        c.head_dim ((b.kv.drop (j * c.head_dim)).take c.head_dim)
        ((b.score.drop (j * c.head_dim)).take c.head_dim))
      exact ⟨state, hstate⟩
  induction carries generalizing kv with
  | nil => exact ⟨kv.state, rfl⟩
  | cons b carries ih =>
    rw [List.foldl_cons]
    obtain ⟨state, hstate⟩ := hone b (List.range n) kv
    obtain ⟨state', hstate'⟩ := ih (put_batch_carry c p0 n kv b)
    rw [hstate', put_batch_carry, hstate]
    exact ⟨state', rfl⟩

theorem restore_batch_ring_keeps (e : DecodeStream) (snap : RingSnapshot) (p0 accepted m : Nat) :
    KeepsStream e (restore_batch_ring e snap p0 accepted m).2 ∧
      (restore_batch_ring e snap p0 accepted m).2.rest = e.rest := by
  unfold restore_batch_ring
  split
  · exact ⟨.refl e, rfl⟩
  obtain ⟨val, scale, slots, heq⟩ := restore_ring_keeps e.kv
    (sub_snapshot snap (List.range' (accepted + 1) (m - (accepted + 1))))
  generalize e.kv.restore_ring _ = res at heq
  obtain ⟨r, kv⟩ := res
  cases heq
  cases r with
  | error err => exact ⟨⟨rfl, rfl, rfl, rfl⟩, rfl⟩
  | ok _ => exact ⟨⟨rfl, rfl, rfl, rfl⟩, rfl⟩

theorem append_draft_keeps (e : DecodeStream) (p0 n : Nat) :
    KeepsStream e (append_draft a e p0 n).2 := by
  unfold append_draft
  split
  · exact .refl e
  · cases a.append with
    | error err => exact .refl e
    | ok _ => exact ⟨rfl, rfl, rfl, rfl⟩

theorem commit_rows_keeps (b : BatchBackup) (carries : List BatchCarry) (p0 n m : Nat)
    (e : DecodeStream) : KeepsStream e (commit_rows c a b carries p0 n m e).2 := by
  unfold commit_rows
  -- in the order of the source: the ring, the carries, the counts, the draft
  have hring := restore_batch_ring_keeps e b.snap p0 (n - 1) m
  generalize restore_batch_ring e b.snap p0 (n - 1) m = res at hring
  obtain ⟨r, e₁⟩ := res
  cases r with
  | error err => exact hring.1
  | ok _ =>
    dsimp only
    obtain ⟨state, hstate⟩ := restore_carry_keeps e₁.kv b.carry
    generalize e₁.kv.restore_carry b.carry = res at hstate
    obtain ⟨r, kv⟩ := res
    cases hstate
    cases r with
    | error err => exact hring.1.trans ⟨rfl, rfl, rfl, rfl⟩
    | ok _ =>
      dsimp only
      obtain ⟨state', hstate'⟩ := put_batch_carry_keeps (c := c) p0 n
        { e₁.kv with state := state } carries
      rw [hstate']
      have hcounts := @prepare_ced_keeps
        (KvStore.resolve_ring { e₁.kv with state := state' } (p0 + n)) c (p0 + n - 1)
      generalize prepare_ced c _ (p0 + n - 1) = res at hcounts
      obtain ⟨r, kv⟩ := res
      have hkeeps : ∀ history draft, KeepsStream e
          { kv, history, rest := { e₁.rest with draft := draft } } := fun _ _ =>
        hring.1.trans ⟨hcounts.cfg, hcounts.valid, rfl, rfl⟩
      cases r with
      | error err => exact hkeeps _ _
      | ok _ =>
        dsimp only
        have happend := append_draft_keeps (a := a) {
          kv
          history := resize e₁.history (p0 + n)
          rest := { e₁.rest with draft := restore_draft e₁.rest.draft b.draft p0 n m } } p0 n
        generalize append_draft a _ p0 n = res at happend
        obtain ⟨r, e₂⟩ := res
        cases r with
        | error err => exact (hkeeps _ _).trans happend
        | ok _ => exact (hkeeps _ _).trans happend

/-- What a commit of `n` rows of `m` leaves of a context that has them all. -/
structure Committed (c : TextConfig) (b : BatchBackup) (carries : List BatchCarry) (p0 n m : Nat)
    (e e' : DecodeStream) : Prop where
  history : e'.history = e.history.take (p0 + n)
  rest : e'.rest = { e.rest with
    draft := restore_draft e.rest.draft b.draft p0 n m
    dspark_next := p0 + n }
  store : ∃ ring carry, (if m ≤ n then ring = e.kv else e.kv.restore_ring
      (sub_snapshot b.snap (List.range' n (m - n))) = (.ok (), ring)) ∧
    ring.restore_carry b.carry = (.ok (), carry) ∧
    prepare_ced c ((carries.foldl (put_batch_carry c p0 n) carry).resolve_ring (p0 + n))
      (p0 + n - 1) = (.ok (), e'.kv)

theorem restore_batch_ring_ok {snap : RingSnapshot} {p0 n m : Nat} (hn : 0 < n)
    (h : (restore_batch_ring e snap p0 (n - 1) m).1 = .ok ()) :
    ∃ ring history, (restore_batch_ring e snap p0 (n - 1) m).2 =
        { e with kv := ring, history := history } ∧
      (if m ≤ n then ring = e.kv
        else e.kv.restore_ring (sub_snapshot snap (List.range' n (m - n))) = (.ok (), ring)) ∧
      (p0 + n ≤ e.history.length → p0 + n ≤ history.length ∧
        history.take (p0 + n) = e.history.take (p0 + n)) := by
  have hn' : n - 1 + 1 = n := by omega
  unfold restore_batch_ring at h ⊢
  rw [hn'] at h ⊢
  by_cases hall : n ≥ m
  · rw [if_pos hall]
    have hall' : m ≤ n := hall
    exact ⟨e.kv, e.history, rfl, by rw [if_pos hall'], fun hlen => ⟨hlen, rfl⟩⟩
  · rw [if_neg hall] at h ⊢
    have hsome : ¬ m ≤ n := hall
    generalize hres : e.kv.restore_ring _ = res at h ⊢
    obtain ⟨r, ring⟩ := res
    cases r with
    | error err => cases h
    | ok _ =>
      refine ⟨ring, _, rfl, ?_, fun hlen => ?_⟩
      · rw [if_neg hsome]
      · split
        · next hlong =>
          -- one token more than the rows that stay
          rw [resize_take (Nat.le_of_lt hlong), List.take_take, List.length_take]
          have hmin : min (p0 + n) (p0 + (n - 1) + 2) = p0 + n := by omega
          rw [hmin]
          exact ⟨by omega, rfl⟩
        · exact ⟨hlen, rfl⟩

theorem append_draft_ok {p0 n : Nat} (h : (append_draft a e p0 n).1 = .ok ()) :
    (append_draft a e p0 n).2 = { e with rest := { e.rest with dspark_next := p0 + n } } := by
  unfold append_draft at h ⊢
  split at h
  · cases h
  next hnext =>
  rw [if_neg hnext]
  cases happend : a.append with
  | error err =>
    rw [happend] at h
    cases h
  | ok _ => rfl

theorem commit_rows_ok {b : BatchBackup} {carries : List BatchCarry} {p0 n m : Nat} (hn : 0 < n)
    (hlen : p0 + n ≤ e.history.length) (h : (commit_rows c a b carries p0 n m e).1 = .ok ()) :
    Committed c b carries p0 n m e (commit_rows c a b carries p0 n m e).2 := by
  unfold commit_rows at h ⊢
  have hring := @restore_batch_ring_ok e b.snap p0 n m hn
  generalize restore_batch_ring e b.snap p0 (n - 1) m = res at h hring ⊢
  obtain ⟨r, e₁⟩ := res
  cases r with
  | error err => cases h
  | ok _ =>
    -- each part starts from what the one before has left
    obtain ⟨ring, history, heq, hstore, hhistory⟩ := hring rfl
    obtain rfl : e₁ = { e with kv := ring, history := history } := heq
    obtain ⟨hlong, htake⟩ := hhistory hlen
    dsimp only at h ⊢
    cases hcarry : ring.restore_carry b.carry with
    | mk r carry =>
      rw [hcarry] at h
      cases r with
      | error err => cases h
      | ok _ =>
        dsimp only at h ⊢
        cases hcounts : prepare_ced c ((carries.foldl (put_batch_carry c p0 n) carry).resolve_ring
            (p0 + n)) (p0 + n - 1) with
        | mk r kv =>
          rw [hcounts] at h
          cases r with
          | error err => cases h
          | ok _ =>
            dsimp only at h ⊢
            have happend := @append_draft_ok a {
              kv
              history := resize history (p0 + n)
              rest := { e.rest with draft := restore_draft e.rest.draft b.draft p0 n m } } p0 n
            generalize append_draft a _ p0 n = res at h happend ⊢
            obtain ⟨r, e₂⟩ := res
            cases r with
            | error err => cases h
            | ok _ =>
              dsimp only
              obtain rfl : e₂ = _ := happend rfl
              exact {
                history := (resize_take hlong).trans htake
                rest := rfl
                store := ⟨ring, carry, hstore, hcarry, hcounts⟩ }

/-! ### The step, taken apart -/

/-- What a verification starts from: the tokens, the ring resolved, and what was taken of it. -/
structure Started (c : TextConfig) (e e' : DecodeStream) (root max_new : Nat) (v : Verification) :
    Prop where
  context : 0 < e.history.length
  room : 0 < max_new
  input : ∃ drafts, v.input = root :: drafts ∧ drafts.length ≤ max_new - 1
  fits : e.history.length + v.input.length ≤ max_context e
  columns : v.input.length ≤ kMgtMaxM
  state : e' = { e with
    kv := e.kv.resolve_ring e.history.length
    rest := { e.rest with dspark_next := e.history.length } }
  snap : (e.kv.resolve_ring e.history.length).snapshot_ring
    (batch_slots c.sliding_window e.history.length v.input.length)
    (List.range c.num_hidden_layers) = .ok v.backup.snap
  draft : v.backup.draft = backup_draft e.rest.draft e.history.length v.input.length
  carry : v.backup.carry = backup_of (e.kv.resolve_ring e.history.length) e.history.length
    e.history.length

theorem seed_draft_keeps (e : DecodeStream) (pos : Nat) :
    ∃ next, (seed_draft a e pos).2 = { e with rest := { e.rest with dspark_next := next } } ∧
      ((seed_draft a e pos).1 = .ok () → next = pos + 1) := by
  unfold seed_draft
  split
  · next hnext => exact ⟨e.rest.dspark_next, rfl, fun _ => hnext⟩
  dsimp only
  split
  · exact ⟨e.rest.dspark_next, rfl, fun h => by cases h⟩
  · cases a.seed with
    | error err => exact ⟨0, rfl, fun h => by cases h⟩
    | ok _ => exact ⟨pos + 1, rfl, fun _ => rfl⟩

/-- Before the verification the context stands as it was; its ring may have been resolved. -/
theorem start_verification_keeps (e : DecodeStream) (root max_new : Nat) :
    ∃ kv next, (start_verification c cfg a e root max_new).2 =
        { e with kv := kv, rest := { e.rest with dspark_next := next } } ∧
      (kv = e.kv ∨ kv = e.kv.resolve_ring e.history.length) := by
  unfold start_verification
  dsimp only
  split
  · exact ⟨e.kv, e.rest.dspark_next, rfl, .inl rfl⟩
  split
  · exact ⟨e.kv, e.rest.dspark_next, rfl, .inl rfl⟩
  obtain ⟨next, hstate, _⟩ := seed_draft_keeps (a := a) e (e.history.length - 1)
  generalize seed_draft a e (e.history.length - 1) = res at hstate
  obtain ⟨r, e₁⟩ := res
  obtain rfl : e₁ = _ := hstate
  cases r with
  | error err => exact ⟨e.kv, next, rfl, .inl rfl⟩
  | ok _ =>
    dsimp only
    cases propose cfg a root _ with
    | error err => exact ⟨e.kv, next, rfl, .inl rfl⟩
    | ok input =>
      dsimp only
      cases a.init_batch with
      | error err => exact ⟨e.kv, next, rfl, .inl rfl⟩
      | ok _ =>
        dsimp only
        -- the snapshot resolves the ring before it reads it
        have hsnap : (snapshot_batch_ring c e.kv e.history.length input.length).2 = e.kv ∨
            (snapshot_batch_ring c e.kv e.history.length input.length).2 =
              e.kv.resolve_ring e.history.length := by
          unfold snapshot_batch_ring
          split
          · exact .inl rfl
          · exact .inr rfl
        generalize snapshot_batch_ring c e.kv e.history.length input.length = res at hsnap
        obtain ⟨r, kv⟩ := res
        cases r with
        | error err => exact ⟨kv, next, rfl, hsnap⟩
        | ok snap =>
          dsimp only
          cases kv.backup_rows e.history.length e.history.length with
          | error err => exact ⟨kv, next, rfl, hsnap⟩
          | ok carry => exact ⟨kv, next, rfl, hsnap⟩

theorem snapshot_batch_ring_ok {kv kv' : KvStore} {p0 m : Nat} {snap : RingSnapshot}
    (h : snapshot_batch_ring c kv p0 m = (.ok snap, kv')) :
    m ≤ kMgtMaxM ∧ kv' = kv.resolve_ring p0 ∧
      (kv.resolve_ring p0).snapshot_ring (batch_slots c.sliding_window p0 m)
        (List.range c.num_hidden_layers) = .ok snap := by
  unfold snapshot_batch_ring at h
  split at h
  · cases h
  · next hcolumns =>
    obtain ⟨hsnap, rfl⟩ := Prod.mk.inj h
    exact ⟨by omega, rfl, hsnap⟩

theorem start_verification_ok {e' : DecodeStream} {root max_new : Nat} {v : Verification}
    (h : start_verification c cfg a e root max_new = (.ok v, e')) :
    Started c e e' root max_new v := by
  unfold start_verification at h
  dsimp only at h
  split at h
  · cases h
  next hready =>
  split at h
  · cases h
  next hfull =>
  have hseed := @seed_draft_keeps a e (e.history.length - 1)
  generalize seed_draft a e (e.history.length - 1) = res at h hseed
  obtain ⟨r, e₁⟩ := res
  obtain ⟨next, hstate, hnext⟩ := hseed
  obtain rfl : e₁ = _ := hstate
  cases r with
  | error err => cases h
  | ok _ =>
    -- a seeding that returns ends where the context does
    have hpos : next = e.history.length := by
      have hnext' := hnext rfl
      omega
    subst hpos
    dsimp only at h
    split at h
    · cases h
    next input hinput =>
    obtain ⟨drafts, rfl, hdrafts⟩ := propose_spec hinput
    cases hinit : a.init_batch with
    | error err =>
      rw [hinit] at h
      cases h
    | ok _ =>
      rw [hinit] at h
      dsimp only at h
      split at h
      · cases h
      next snap kv htaken =>
      obtain ⟨hcolumns, rfl, hsnap⟩ := snapshot_batch_ring_ok htaken
      split at h
      · cases h
      next carry hcarry =>
      cases h
      exact {
        context := by omega
        room := by omega
        input := ⟨drafts, rfl, by omega⟩
        fits := by
          rw [List.length_cons]
          omega
        columns := hcolumns
        state := rfl
        snap := hsnap
        draft := rfl
        carry := (backup_rows_eq hcarry).2 }

/-- A batch that went through and was committed. -/
theorem verify_and_commit_ok {e' : DecodeStream} {stops rows : List Nat} {v : Verification}
    (h : verify_and_commit c cfg greedy a e stops v = (.ok rows, e')) :
    ∃ carries e₁ accepted last, forward_batch c a.batch e e.history.length v.input =
        (.ok carries, e₁) ∧ accepted ≤ v.input.tail.length ∧
      emit_rows stops last (v.input.tail.take accepted) = .ok rows ∧
      commit_rows c a v.backup carries e.history.length rows.length v.input.length e₁ =
        (.ok (), e') := by
  unfold verify_and_commit at h
  dsimp only at h
  split at h
  · cases h
  next carries e₁ hbatch =>
  split at h
  · cases h
  next accepted haccepted =>
  split at h
  · cases h
  next emitted hemit =>
  split at h
  · cases h
  next e₂ hcommit =>
  cases h
  exact ⟨carries, e₁, accepted, _, hbatch, accept_drafts_le haccepted, hemit, hcommit⟩

/-! ### Outcomes -/

/-- A step that went through: the tokens it answers and the context it leaves. -/
structure Emitted (c : TextConfig) (e e' : DecodeStream) (root max_new : Nat)
    (stops rows : List Nat) : Prop where
  rows_ne : rows ≠ []
  bounded : rows.length ≤ max_new
  open_ : ∀ t ∈ rows.dropLast, t ∉ stops
  history : e'.history = e.history ++ root :: rows.dropLast
  fits : e.history.length + rows.length ≤ max_context e
  frame : ∀ q < e.history.length, e'.rest.rows q = e.rest.rows q
  whole : ∀ q, e.history.length ≤ q → q < e.history.length + rows.length → Whole c e' q

/-- A step that failed: the context is as it was, or it is empty. -/
def Dropped (e e' : DecodeStream) : Prop :=
  (e'.history = e.history ∧ e'.rest.rows = e.rest.rows) ∨ EmptyContext e'

theorem reset_context_keeps (e : DecodeStream) :
    KeepsStream e (reset_context (stream_parts c steps) e) :=
  ⟨clear_cfg e.kv, clear_valid e.kv, rfl, rfl⟩

theorem forward_batch_rows {b : BatchAnswer} {p0 : Nat} {tokens : List Nat}
    {carries : List BatchCarry} (h : (forward_batch c b e p0 tokens).1 = .ok carries) :
    (∀ q < p0, (forward_batch c b e p0 tokens).2.rest.rows q = e.rest.rows q) ∧
      ∀ q, p0 ≤ q → q < p0 + tokens.length → Whole c (forward_batch c b e p0 tokens).2 q := by
  obtain ⟨_, _, kv, _, _, hstate⟩ := forward_batch_ok h
  rw [hstate]
  have hlayers : ∀ (Ls : List Nat) (e₁ : DecodeStream),
      (∀ q < p0, (Ls.foldl (fun e L => put_batch_layer c b e L p0 tokens.length) e₁).rest.rows q =
        e₁.rest.rows q) ∧
      ∀ q, p0 ≤ q → q < p0 + tokens.length → ∀ L, L ∈ Ls ∨ e₁.rest.rows q L = true →
        (Ls.foldl (fun e L => put_batch_layer c b e L p0 tokens.length) e₁).rest.rows q L = true := by
    intro Ls
    induction Ls with
    | nil => exact fun e₁ => ⟨fun _ _ => rfl, fun q _ _ L hL => hL.resolve_left List.not_mem_nil⟩
    | cons L' Ls ih =>
      intro e₁
      obtain ⟨hframe, hrows⟩ := ih (put_batch_layer c b e₁ L' p0 tokens.length)
      refine ⟨fun q hq => (hframe q hq).trans (if_neg (by omega)), fun q hle hlt L hL => ?_⟩
      refine hrows q hle hlt L ?_
      have hput : (put_batch_layer c b e₁ L' p0 tokens.length).rest.rows q =
          Function.update (e₁.rest.rows q) L' true := if_pos ⟨hle, hlt⟩
      by_cases heq : L = L'
      · right
        rw [hput, heq, Function.update_self]
      · rw [hput, Function.update_of_ne heq]
        exact hL.imp_left fun hmem => (List.mem_cons.mp hmem).resolve_left heq
  obtain ⟨hframe, hrows⟩ := hlayers (List.range c.num_hidden_layers)
    { begin_batch b e p0 tokens with kv := kv }
  refine ⟨fun q hq => (hframe q hq).trans (if_neg (by omega)), fun q hle hlt L hL => ?_⟩
  exact hrows q hle hlt L (.inl (List.mem_range.mpr hL))

/-- A verification that goes through: the batch ran, its rows are at the end of the history, and
    those that are emitted were committed. -/
theorem verify_and_commit_done {e' : DecodeStream} {root : Nat} {drafts stops rows : List Nat}
    {v : Verification} (hinput : v.input = root :: drafts)
    (h : verify_and_commit c cfg greedy a e stops v = (.ok rows, e')) :
    ∃ carries e₁ accepted last, forward_batch c a.batch e e.history.length v.input =
        (.ok carries, e₁) ∧ emit_rows stops last (drafts.take accepted) = .ok rows ∧
      0 < rows.length ∧ rows.length ≤ min accepted drafts.length + 1 ∧
      e₁.history = e.history ++ v.input ∧
      Committed c v.backup carries e.history.length rows.length v.input.length e₁ e' := by
  obtain ⟨carries, e₁, accepted, last, hbatch, haccepted, hemit, hcommit⟩ := verify_and_commit_ok h
  obtain ⟨hne, hlen, _, _⟩ := emit_rows_spec hemit
  have hpos := List.length_pos_iff.mpr hne
  have hbatch₁ : (forward_batch c a.batch e e.history.length v.input).1 = .ok carries := by
    rw [hbatch]
  obtain ⟨_, _, kv, _, _, hstate⟩ := forward_batch_ok hbatch₁
  rw [hbatch] at hstate
  -- the batch appended its tokens
  have hhistory₁ : e₁.history = e.history ++ v.input := by
    have hlayers : ∀ (Ls : List Nat) (e₂ : DecodeStream), (Ls.foldl (fun e' L =>
        put_batch_layer c a.batch e' L e.history.length v.input.length) e₂).history =
          e₂.history := by
      intro Ls
      induction Ls with
      | nil => exact fun _ => rfl
      | cons L Ls ih => exact fun e₂ => ih _
    have hfinal : e₁ = _ := hstate
    rw [hfinal]
    exact (hlayers _ _).trans (record_tokens_end e.history v.input)
  rw [hinput, List.tail_cons] at hemit
  rw [List.length_take, hinput, List.tail_cons] at hlen
  have hcommit₁ : (commit_rows c a v.backup carries e.history.length rows.length v.input.length
      e₁).1 = .ok () := by rw [hcommit]
  have hdone := commit_rows_ok hpos (by
    rw [hhistory₁, List.length_append, hinput, List.length_cons]
    omega) hcommit₁
  rw [hcommit] at hdone
  exact ⟨carries, e₁, accepted, last, hbatch, hemit, hpos, hlen, hhistory₁, hdone⟩

theorem verify_and_commit_emits {e₀ e' : DecodeStream} {root max_new : Nat}
    {stops rows : List Nat} {v : Verification} (hstart : Started c e₀ e root max_new v)
    (h : verify_and_commit c cfg greedy a e stops v = (.ok rows, e')) :
    Emitted c e₀ e' root max_new stops rows := by
  obtain ⟨drafts, hinput, hdrafts⟩ := hstart.input
  obtain ⟨carries, e₁, accepted, last, hbatch, hemit, hpos, hlen, hhistory₁, hdone⟩ :=
    verify_and_commit_done hinput h
  obtain ⟨hne, _, hdrop, hopen⟩ := emit_rows_spec hemit
  have hhistory : e.history = e₀.history := by rw [hstart.state]
  have hrest : e.rest.rows = e₀.rest.rows := by rw [hstart.state]
  have hbatch₁ : (forward_batch c a.batch e e.history.length v.input).1 = .ok carries := by
    rw [hbatch]
  obtain ⟨hframe, hwhole⟩ := forward_batch_rows hbatch₁
  rw [hbatch] at hframe hwhole
  have hrows_le : rows.length ≤ v.input.length := by
    rw [hinput, List.length_cons]
    omega
  have hrows' : e'.rest.rows = e₁.rest.rows := by rw [hdone.rest]
  refine {
    rows_ne := hne
    bounded := by
      have hroom := hstart.room
      omega
    open_ := hopen
    history := ?_
    fits := by
      have hfits := hstart.fits
      omega
    frame := fun q hq => ?_
    whole := fun q hle hlt L hL => ?_ }
  · obtain ⟨n, hn⟩ := Nat.exists_eq_add_of_lt hpos
    rw [Nat.zero_add] at hn
    have htake : min n accepted = n := by omega
    rw [hdone.history, hhistory₁, List.take_length_add_append, hdrop, hinput, hn,
      List.take_succ_cons, Nat.add_sub_cancel, List.take_take, htake, hhistory]
  · rw [hrows', hframe q (by rw [hhistory]; exact hq), hrest]
  · rw [hrows']
    exact hwhole q (by rw [hhistory]; exact hle) (by rw [hhistory]; omega) L hL

theorem verify_and_commit_keeps (e : DecodeStream) (stops : List Nat) (v : Verification) :
    KeepsStream e (verify_and_commit c cfg greedy a e stops v).2 := by
  unfold verify_and_commit
  dsimp only
  have hbatch := forward_batch_keeps (c := c) a.batch e e.history.length v.input
  generalize forward_batch c a.batch e e.history.length v.input = res at hbatch
  obtain ⟨r, e₁⟩ := res
  cases r with
  | error err => exact hbatch
  | ok carries =>
    dsimp only
    cases accept_drafts cfg c.vocab_size a.rank v.input.tail with
    | error err => exact hbatch
    | ok accepted =>
      dsimp only
      split
      · exact hbatch
      · next rows hrows =>
        have hcommit := commit_rows_keeps (c := c) (a := a) v.backup carries e.history.length
          rows.length v.input.length e₁
        generalize commit_rows c a v.backup carries _ _ _ e₁ = res at hcommit
        obtain ⟨r, e₂⟩ := res
        cases r with
        | error err => exact hbatch.trans hcommit
        | ok _ => exact hbatch.trans hcommit

/-- The outcomes of a speculative step: it emits rows, it fails before the verification with the
    context as it was, or it fails later with an empty one. -/
theorem speculative_step_spec (e : DecodeStream) (root max_new : Nat) (stops : List Nat) :
    KeepsStream e (speculative_step c steps cfg greedy a e root max_new stops).2 ∧
      (∀ rows, (speculative_step c steps cfg greedy a e root max_new stops).1 = .ok rows →
        Emitted c e (speculative_step c steps cfg greedy a e root max_new stops).2 root max_new
          stops rows) ∧
      (∀ err, (speculative_step c steps cfg greedy a e root max_new stops).1 = .error err →
        Dropped e (speculative_step c steps cfg greedy a e root max_new stops).2) := by
  unfold speculative_step
  have hok := @start_verification_ok c cfg a (tick e)
  obtain ⟨kv, next, hstart, hkv⟩ := @start_verification_keeps c cfg a (tick e) root max_new
  have hkeeps : KeepsStream e (start_verification c cfg a (tick e) root max_new).2 := by
    rw [hstart]
    rcases hkv with rfl | rfl
    · exact ⟨rfl, rfl, rfl, rfl⟩
    · exact ⟨rfl, rfl, rfl, rfl⟩
  have hsame : (start_verification c cfg a (tick e) root max_new).2.history = e.history ∧
      (start_verification c cfg a (tick e) root max_new).2.rest.rows = e.rest.rows := by
    rw [hstart]
    exact ⟨rfl, rfl⟩
  clear hstart
  cases hres : start_verification c cfg a (tick e) root max_new with
  | mk r e₀ =>
    rw [hres] at hkeeps hsame
    cases r with
    | error err => exact ⟨hkeeps, fun rows h => (by cases h), fun _ _ => .inl hsame⟩
    | ok v =>
      dsimp only
      -- from here on a failure drops the context
      unfold verify
      have hverify := @verify_and_commit_keeps c cfg greedy a e₀ stops v
      have hemits := @verify_and_commit_emits c cfg greedy a e₀ (tick e)
      cases hrun : verify_and_commit c cfg greedy a e₀ stops v with
      | mk r e₁ =>
        rw [hrun] at hverify
        cases r with
        | error err =>
          refine ⟨hkeeps.trans (hverify.trans (reset_context_keeps e₁)), fun rows h => (by cases h),
            fun _ _ => .inr (reset_context_empty _ e₁)⟩
        | ok rows =>
          refine ⟨hkeeps.trans hverify, fun rows' h => ?_, fun _ h => (by cases h)⟩
          cases h
          have hrows := hemits (hok hres) hrun
          exact ⟨hrows.rows_ne, hrows.bounded, hrows.open_, hrows.history, hrows.fits, hrows.frame,
            hrows.whole⟩

end Frames

end CachedMoe.Runtime
