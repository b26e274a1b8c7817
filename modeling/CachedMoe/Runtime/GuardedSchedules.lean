import CachedMoe.Runtime.StreamGuards

/-! # The eviction guard under every schedule

    Outlines of the phases of a layer, from them of the three schedules, and the safety of the
    guard at every moment of a sequence of calls. No stream waits between the first MoE and the
    last of streams that are behind their gates together; that is what `Ahead` needs. -/

namespace CachedMoe.Runtime.MultiStream

open CachedMoe Store LTS.Machine

variable {n : Nat} {stat : Fin n → Status} {j : Fin n}

/-! ### What is claimed at every moment -/

/-- Every guard of a layer whose last reading buffer has not completed is above the timeline; the
    slots under it hold their experts and cannot be evicted. -/
def GuardsHold (s : State n) : Prop :=
  ∀ g r, s.readings g = some r → ¬ Done s r →
    s.engine.store.completed_timeline < g ∧ ∀ k ∈ s.held, k.guard = g →
      Guarded s.engine.store k.slot g ∧ s.engine.store.index k.key = some k.slot

/-- Between two calls of a store that is in use: no layer is being read. -/
structure Between (s : State n) : Prop where
  store : LTS.Reachable store_system s.engine.store
  clock : s.engine.store.completed_timeline ≤ s.engine.guard_clock
  readings : ∀ g, s.readings g = none
  held : s.held = []
  streams : ∀ j, (s.stream j).open_guard = 0 ∧ (s.stream j).inflight_guard = 0 ∧
    (s.stream j).fence ≤ (s.stream j).fence_value

theorem Ok.guards_hold {s : State n} (h : Ok stat s) : GuardsHold s := by
  intro g r hr hpending
  have hlive : Live s r.stream g r := ⟨hr, rfl, hpending⟩
  refine ⟨h.books.below _ g r hlive, fun k hk hkg => ?_⟩
  obtain ⟨hg, hkey⟩ := h.books.held _ g r hlive k hk hkg
  have hused : (s.engine.store.slots k.slot).state ≠ .Free := by
    rw [hg.resident]
    decide
  refine ⟨hg, ?_⟩
  rw [← hkey]
  exact index_own_key h.books.store hg.lt hused

theorem Between.ok {s : State n} (h : Between s) : Ok (fun _ => .sent) s := by
  have hnone : ∀ j g r, ¬ Live s j g r := by
    intro j g r hl
    have hreading := hl.reading
    rw [h.readings g] at hreading
    cases hreading
  refine ⟨⟨reachable_inv h.store, h.clock, fun g r hr => ?_, fun j => ?_, fun j => (h.streams j).2.2,
    fun j g r hl => absurd hl (hnone j g r), fun k hk => ?_, fun j g r hl => absurd hl (hnone j g r)⟩,
    fun j => ⟨(h.streams j).1, fun g r hl => absurd hl (hnone j g r)⟩⟩
  · rw [h.readings g] at hr
    cases hr
  · rw [(h.streams j).1, (h.streams j).2.1]
    exact ⟨Nat.zero_le _, Nat.zero_le _⟩
  · rw [h.held] at hk
    exact absurd hk List.not_mem_nil

/-- With no stream inside a layer nothing can be overtaken. -/
theorem ahead_of_outside {s : State n} (h : ∀ i, (stat i).inside = false) : Ahead stat s := by
  intro i g r _ hin
  rw [h i] at hin
  cases hin

/-! ### Outlines of the phases -/

/-- The assertion while every wait is allowed. -/
def Waits (stat : Fin n → Status) (s : State n) : Prop := Ok stat s ∧ Ahead stat s

abbrev Proves (P : State n → Prop) (program : List (Fin n × Act)) (Q : State n → Prop) : Prop :=
  Outline (machine n) GuardsHold P program Q

theorem keeps_ok (stat : Fin n → Status) : (machine n).Keeps GuardsHold (Ok stat) :=
  ⟨fun _ _ _ h hev => h.env hev, fun _ h => h.guards_hold⟩

theorem keeps_waits (stat : Fin n → Status) : (machine n).Keeps GuardsHold (Waits stat) :=
  ⟨fun _ _ _ h hev => ⟨h.1.env hev, h.2.env hev⟩, fun _ h => h.1.guards_hold⟩

/-- A stretch of a phase that ends no layer. -/
def Status.before (t : Status) (a : Act) : Option Status :=
  (t.next a).filter fun t' => !t.closes t'

/-- A stretch of a phase that publishes nothing. -/
def Status.during (t : Status) (a : Act) : Option Status :=
  (t.next a).filter fun t' => !t.publishes t'

theorem before_outline {acts : List Act} {t t' : Status} (hpath : acts.foldlM Status.before t = some t')
    (hj : stat j = t) : Proves (Waits stat) (Call.on j acts) (Waits (Function.update stat j t')) := by
  induction acts generalizing stat t with
  | nil =>
    cases hpath
    rw [← hj, Function.update_eq_self]
    exact .done (keeps_waits stat)
  | cons a acts ih =>
    rw [List.foldlM_cons] at hpath
    obtain ⟨t₁, hfirst, hrest⟩ := Option.bind_eq_some_iff.mp hpath
    obtain ⟨hnext, hcloses⟩ := Option.filter_eq_some_iff.mp hfirst
    have hstep : ∀ s s', Waits stat s → s.act j a = some s' →
        Waits (Function.update stat j t₁) s' := by
      intro s s' h hact
      obtain ⟨hstep, hcalm⟩ := act_step h.1 (hj ▸ hnext) (fun _ => h.2) hact
      have hopen : (stat j).closes t₁ = false := by
        rw [hj]
        simpa using hcloses
      exact ⟨h.1.step hstep, h.2.step h.1 hstep (hcalm hopen)⟩
    have htail := ih hrest (Function.update_self j t₁ stat)
    rw [Function.update_idem] at htail
    exact .act (keeps_waits stat) hstep htail

theorem during_outline {acts : List Act} {t t' : Status} (hpath : acts.foldlM Status.during t = some t')
    (hj : stat j = t) : Proves (Ok stat) (Call.on j acts) (Ok (Function.update stat j t')) := by
  induction acts generalizing stat t with
  | nil =>
    cases hpath
    rw [← hj, Function.update_eq_self]
    exact .done (keeps_ok stat)
  | cons a acts ih =>
    rw [List.foldlM_cons] at hpath
    obtain ⟨t₁, hfirst, hrest⟩ := Option.bind_eq_some_iff.mp hpath
    obtain ⟨hnext, hpublishes⟩ := Option.filter_eq_some_iff.mp hfirst
    have hstep : ∀ s s', Ok stat s → s.act j a = some s' → Ok (Function.update stat j t₁) s' := by
      intro s s' h hact
      have hno : (stat j).publishes t₁ = false := by
        rw [hj]
        simpa using hpublishes
      obtain ⟨hstep, _⟩ := act_step h (hj ▸ hnext) (fun hp => absurd (hno.symm.trans hp) (by decide)) hact
      exact h.step hstep
    have htail := ih hrest (Function.update_self j t₁ stat)
    rw [Function.update_idem] at htail
    exact .act (keeps_ok stat) hstep htail

/-- Where a stream stands behind its gate. -/
def gated (p : LayerPlan) : Status :=
  match p.routing with
  | .mask .. => .masked
  | .split .. => .gated
  | .whole _ => .unguarded

theorem begin_path (p : LayerPlan) :
    (layer_begin p).foldlM Status.before .ready = some .begun := by
  unfold layer_begin
  cases p.engram
  · cases p.shared_early
    · rfl
    · rfl
  · cases p.shared_early
    · rfl
    · rfl

theorem gate_path (p : LayerPlan) :
    (layer_gate p).foldlM Status.before .begun = some (gated p) := by
  unfold layer_gate gated
  cases p.routing with
  | mask token hits candidates used => rfl
  | split early late =>
    dsimp only
    split
    · rfl
    · rfl
  | whole used => rfl

theorem moe_path (eager : Bool) (p : LayerPlan) :
    (layer_moe eager p).foldlM Status.during (gated p) =
      some (if eager then .sent else .opened) := by
  unfold layer_moe gated
  cases p.routing with
  | mask token hits candidates used =>
    dsimp only
    split
    · cases eager
      · rfl
      · rfl
    · cases eager
      · rfl
      · rfl
  | split early late =>
    cases eager
    · rfl
    · rfl
  | whole used =>
    dsimp only
    split
    · cases eager
      · rfl
      · rfl
    · cases eager
      · rfl
      · rfl

variable {c : Call n} {L : Nat}

theorem begin_outline (hj : stat j = .ready) :
    Proves (Waits stat) (c.begin_at j L) (Waits (Function.update stat j .begun)) :=
  before_outline (begin_path _) hj

theorem gate_outline (hj : stat j = .begun) :
    Proves (Waits stat) (c.gate_at j L) (Waits (Function.update stat j (gated (c.plans j L)))) :=
  before_outline (gate_path _) hj

theorem moe_outline (hj : stat j = gated (c.plans j L)) :
    Proves (Ok stat) (c.moe_at j L) (Ok (Function.update stat j .ready)) := by
  refine (during_outline (moe_path _ _) hj).post (keeps_ok _) fun s h => ?_
  refine h.weaken fun i hi => ?_
  by_cases hij : i = j
  · subst hij
    rw [Function.update_self] at hi ⊢
    split at hi
    · exact hi.ready_of_sent
    · exact hi.ready_of_opened
  · rw [Function.update_of_ne hij] at hi ⊢
    exact hi

/-! ### Streams that take part in a call -/

/-- The streams of `rest` stand at `a`, the other ones of the call at `b`, the rest idle. -/
def standing (steps rest : List (Fin n)) (a b : Fin n → Status) (i : Fin n) : Status :=
  if i ∈ rest then a i else if i ∈ steps then b i else .sent

/-- One stream of the call goes on. -/
theorem standing_cons {steps rest : List (Fin n)} {a b : Fin n → Status} (hj : j ∈ steps)
    (hrest : j ∉ rest) :
    Function.update (standing steps (j :: rest) a b) j (b j) = standing steps rest a b := by
  funext i
  by_cases hi : i = j
  · subst hi
    rw [Function.update_self]
    unfold standing
    rw [if_neg hrest, if_pos hj]
  · rw [Function.update_of_ne hi]
    unfold standing
    simp only [List.mem_cons, hi, false_or]

theorem standing_self {steps rest : List (Fin n)} {a b : Fin n → Status} :
    standing steps (j :: rest) a b j = a j := if_pos List.mem_cons_self

/-- The streams of a call stand at `a`, the rest idle. -/
def placed (steps : List (Fin n)) (a : Fin n → Status) (i : Fin n) : Status :=
  if i ∈ steps then a i else .sent

theorem standing_all {steps : List (Fin n)} {a b : Fin n → Status} :
    standing steps steps a b = placed steps a := by
  funext i
  unfold standing placed
  by_cases hi : i ∈ steps
  · rw [if_pos hi, if_pos hi]
  · rw [if_neg hi, if_neg hi, if_neg hi]

theorem placed_outside {steps : List (Fin n)} {a : Fin n → Status}
    (ha : ∀ i, (a i).inside = false) (i : Fin n) : (placed steps a i).inside = false := by
  unfold placed
  split
  · exact ha i
  · rfl

theorem standing_outside {steps rest : List (Fin n)} {a b : Fin n → Status}
    (ha : ∀ i, (a i).inside = false) (hb : ∀ i, (b i).inside = false) (i : Fin n) :
    (standing steps rest a b i).inside = false := by
  unfold standing
  split
  · exact ha i
  split
  · exact hb i
  · rfl

/-- A loop over the streams of a call. -/
theorem each_stream {P : (Fin n → Status) → State n → Prop} {a b : Fin n → Status}
    {body : Fin n → List (Fin n × Act)} (steps : List (Fin n)) (hnodup : steps.Nodup)
    (hkeeps : ∀ stat, (machine n).Keeps GuardsHold (P stat))
    (hbody : ∀ j rest, (∀ i ∈ rest, i ∈ steps) → j ∈ steps → j ∉ rest →
      Proves (P (standing steps (j :: rest) a b)) (body j)
        (P (Function.update (standing steps (j :: rest) a b) j (b j)))) :
    Proves (P (placed steps a)) (steps.flatMap body) (P (placed steps b)) := by
  have hfirst : placed steps a = standing steps steps a b := standing_all.symm
  have hlast : placed steps b = standing steps [] a b := rfl
  rw [hfirst, hlast]
  refine Outline.flatMap (I := fun rest => P (standing steps rest a b)) (hkeeps _) ?_
  intro done j rest heq
  have hsub : ∀ i ∈ j :: rest, i ∈ steps := by
    intro i hi
    rw [heq]
    exact List.mem_append_right _ hi
  have hfresh : j ∉ rest := by
    rw [heq] at hnodup
    exact (List.nodup_cons.mp (List.nodup_append.mp hnodup).2.1).1
  have hone := hbody j rest (fun i hi => hsub i (List.mem_cons_of_mem _ hi))
    (hsub j List.mem_cons_self) hfresh
  rw [standing_cons (hsub j List.mem_cons_self) hfresh] at hone
  exact hone

/-- Without a stream inside a layer, statuses may be weakened. -/
theorem Waits.weaken {s : State n} {stat' : Fin n → Status} (h : Ok stat s)
    (hweak : ∀ i, StreamOk s i (stat i) → StreamOk s i (stat' i))
    (hout : ∀ i, (stat' i).inside = false) : Waits stat' s :=
  ⟨h.weaken hweak, ahead_of_outside hout⟩

/-! ### The phase-grouped schedule -/

theorem interleave_outline (hnodup : c.steps.Nodup) (L : Nat) :
    Proves (Waits (placed c.steps fun _ => .ready)) (c.interleave_layer L)
      (Waits (placed c.steps fun _ => .ready)) := by
  have hbegin : Proves (Waits (placed c.steps fun _ => .ready)) (c.steps.flatMap (c.begin_at · L))
      (Waits (placed c.steps fun _ => .begun)) :=
    each_stream c.steps hnodup keeps_waits fun j rest _ _ _ => begin_outline standing_self
  have hgate : Proves (Waits (placed c.steps fun _ => .begun)) (c.steps.flatMap (c.gate_at · L))
      (Waits (placed c.steps fun j => gated (c.plans j L))) :=
    each_stream c.steps hnodup keeps_waits fun j rest _ _ _ => gate_outline standing_self
  -- no wait publishes from the first MoE to the last
  have hmoe : Proves (Ok (placed c.steps fun j => gated (c.plans j L)))
      (c.steps.flatMap (c.moe_at · L)) (Ok (placed c.steps fun _ => .ready)) :=
    each_stream c.steps hnodup keeps_ok fun j rest _ _ _ => moe_outline standing_self
  refine (hbegin.append hgate).append (.weaken (fun s h => h.1) ?_)
  exact hmoe.post (keeps_waits _) fun s h => ⟨h, ahead_of_outside (placed_outside fun _ => rfl)⟩

/-! ### One stream at a time -/

theorem run_layer_outline (hj : stat j = .ready) (hout : ∀ i, (stat i).inside = false) (L : Nat) :
    Proves (Waits stat) (c.run_layer j L) (Waits stat) := by
  have hbegin : Proves (Waits stat) (c.begin_at j L) (Waits (Function.update stat j .begun)) :=
    begin_outline hj
  have hgate : Proves (Waits (Function.update stat j .begun)) (c.gate_at j L)
      (Waits (Function.update stat j (gated (c.plans j L)))) := by
    have hg := gate_outline (c := c) (L := L) (Function.update_self j .begun stat)
    rw [Function.update_idem] at hg
    exact hg
  have hmoe : Proves (Ok (Function.update stat j (gated (c.plans j L)))) (c.moe_at j L) (Ok stat) := by
    have hm := moe_outline (c := c) (L := L) (Function.update_self j (gated (c.plans j L)) stat)
    rw [Function.update_idem, ← hj, Function.update_eq_self] at hm
    exact hm
  refine (hbegin.append hgate).append (.weaken (fun s h => h.1) ?_)
  exact hmoe.post (keeps_waits _) fun s h => ⟨h, ahead_of_outside hout⟩

theorem prologue_outline (hj : stat j = .sent) :
    Proves (Waits stat) (Call.on j [.prologue]) (Waits stat) := by
  have hone : Proves (Waits stat) (Call.on j [.prologue]) (Waits (Function.update stat j .sent)) :=
    before_outline rfl hj
  rw [← hj, Function.update_eq_self] at hone
  exact hone

theorem epilogue_outline (hj : stat j = .ready) (hout : ∀ i, (stat i).inside = false) :
    Proves (Waits stat) (Call.on j step_epilogue) (Waits (Function.update stat j .sent)) := by
  have hone : Proves (Waits stat) (Call.on j step_epilogue) (Waits (Function.update stat j .waited)) :=
    before_outline rfl hj
  refine hone.post (keeps_waits _) fun s h => Waits.weaken h.1 (fun i hi => ?_) fun i => ?_
  · by_cases hij : i = j
    · subst hij
      rw [Function.update_self] at hi ⊢
      exact hi.sent_of_waited
    · rw [Function.update_of_ne hij] at hi ⊢
      exact hi
  · by_cases hij : i = j
    · subst hij
      rw [Function.update_self]
      rfl
    · rw [Function.update_of_ne hij]
      exact hout i

theorem decode_step_outline (hout : ∀ i, (stat i).inside = false) (hj : stat j = .sent) :
    Proves (Waits stat) (c.decode_step j) (Waits stat) := by
  have hstart : Proves (Waits (Function.update stat j .ready))
      ((List.range c.layers).flatMap (c.run_layer j)) (Waits (Function.update stat j .ready)) := by
    refine Outline.flatMap (I := fun _ => Waits (Function.update stat j .ready)) (keeps_waits _) ?_
    intro done L rest _
    refine run_layer_outline (Function.update_self ..) (fun i => ?_) L
    by_cases hij : i = j
    · subst hij
      rw [Function.update_self]
      rfl
    · rw [Function.update_of_ne hij]
      exact hout i
  have hready : ∀ i, (Function.update stat j .ready i).inside = false := by
    intro i
    by_cases hij : i = j
    · subst hij
      rw [Function.update_self]
      rfl
    · rw [Function.update_of_ne hij]
      exact hout i
  have hend := epilogue_outline (Function.update_self j .ready stat) hready
  rw [Function.update_idem, ← hj, Function.update_eq_self] at hend
  refine ((prologue_outline hj).append (.weaken (fun s h => ?_) hstart)).append hend
  refine Waits.weaken h.1 (fun i hi => ?_) hready
  by_cases hij : i = j
  · subst hij
    rw [Function.update_self]
    rw [hj] at hi
    exact hi.ready_of_sent
  · rw [Function.update_of_ne hij]
    exact hi

/-! ### The pipeline -/

/-- The streams of the call between their layers. -/
abbrev resting (c : Call n) : Fin n → Status := placed c.steps fun _ => .ready

theorem resting_of_mem (hj : j ∈ c.steps) : resting c j = .ready := if_pos hj

theorem begun_outside {k : Fin n} (i : Fin n) :
    (Function.update (resting c) k .begun i).inside = false := by
  by_cases hik : i = k
  · subst hik
    rw [Function.update_self]
    rfl
  · rw [Function.update_of_ne hik]
    exact placed_outside (fun _ => rfl) i

theorem gate_begun (c : Call n) (j : Fin n) (L : Nat) :
    Proves (Waits (Function.update (resting c) j .begun)) (c.gate_at j L)
      (Waits (Function.update (resting c) j (gated (c.plans j L)))) := by
  have hg := gate_outline (c := c) (L := L) (Function.update_self j .begun (resting c))
  rw [Function.update_idem] at hg
  exact hg

/-- Between the gate of a stream and its MoE, another stream begins a layer. -/
theorem handover_outline {k : Fin n} (hj : j ∈ c.steps) (hk : k ∈ c.steps) (hne : k ≠ j)
    (L L' : Nat) :
    Proves (Waits (Function.update (resting c) j .begun))
      (c.gate_at j L ++ c.begin_at k L' ++ c.moe_at j L)
      (Waits (Function.update (resting c) k .begun)) := by
  have hready : Function.update (resting c) j (gated (c.plans j L)) k = .ready := by
    rw [Function.update_of_ne hne]
    exact resting_of_mem hk
  have hbegin := begin_outline (c := c) (L := L') hready
  have hgated : Function.update (Function.update (resting c) j (gated (c.plans j L))) k .begun j =
      gated (c.plans j L) := by
    rw [Function.update_of_ne hne.symm, Function.update_self]
  have hmoe := moe_outline hgated
  have hback : Function.update
      (Function.update (Function.update (resting c) j (gated (c.plans j L))) k .begun) j .ready =
      Function.update (resting c) k .begun := by
    rw [Function.update_comm hne, Function.update_idem, ← resting_of_mem hj, Function.update_eq_self]
  rw [hback] at hmoe
  refine ((gate_begun c j L).append hbegin).append (.weaken (fun s h => h.1) ?_)
  exact hmoe.post (keeps_waits _) fun s h => ⟨h, ahead_of_outside begun_outside⟩

theorem last_outline (hj : j ∈ c.steps) (L : Nat) :
    Proves (Waits (Function.update (resting c) j .begun)) (c.gate_at j L ++ [] ++ c.moe_at j L)
      (Waits (resting c)) := by
  have hmoe := moe_outline (c := c) (L := L) (Function.update_self j (gated (c.plans j L)) (resting c))
  rw [Function.update_idem, ← resting_of_mem hj, Function.update_eq_self] at hmoe
  rw [List.append_nil]
  refine (gate_begun c j L).append (.weaken (fun s h => h.1) ?_)
  exact hmoe.post (keeps_waits _) fun s h => ⟨h, ahead_of_outside (placed_outside fun _ => rfl)⟩

/-- Where the streams stand behind layer `L` of the pipeline. -/
def behind (c : Call n) (first : Fin n) (L : Nat) : Fin n → Status :=
  if L < c.layers then Function.update (resting c) first .begun else resting c

theorem pipeline_layer_outline {first : Fin n} (hfirst : first ∈ c.steps) (L : Nat)
    (rest : List (Fin n)) (j : Fin n) (hsub : ∀ i ∈ j :: rest, i ∈ c.steps)
    (hnodup : (j :: rest).Nodup) (hfresh : first ∉ rest) (hlast : rest = [] → j ≠ first) :
    Proves (Waits (Function.update (resting c) j .begun)) (c.pipeline_layer first L (j :: rest))
      (Waits (behind c first (L + 1))) := by
  induction rest generalizing j with
  | nil =>
    unfold Call.pipeline_layer behind
    have hj := hsub j List.mem_cons_self
    split
    · exact handover_outline hj hfirst (hlast rfl).symm L (L + 1)
    · exact last_outline hj L
  | cons k rest ih =>
    have hk : k ∈ c.steps := hsub k (List.mem_cons_of_mem _ List.mem_cons_self)
    have hne : k ≠ j := by
      rintro rfl
      exact (List.nodup_cons.mp hnodup).1 List.mem_cons_self
    have hkfirst : k ≠ first := by
      rintro rfl
      exact hfresh List.mem_cons_self
    rw [Call.pipeline_layer]
    refine (handover_outline (hsub j List.mem_cons_self) hk hne L L).append ?_
    exact ih k (fun i hi => hsub i (List.mem_cons_of_mem _ hi)) (List.nodup_cons.mp hnodup).2
      (fun hmem => hfresh (List.mem_cons_of_mem _ hmem)) fun _ => hkfirst

theorem pipeline_outline {first k : Fin n} {rest : List (Fin n)} (hsteps : c.steps = first :: k :: rest)
    (hnodup : c.steps.Nodup) (m : Nat) (hm : m ≤ c.layers) :
    Proves (Waits (behind c first 0))
      ((List.range m).flatMap fun L => c.pipeline_layer first L c.steps)
      (Waits (behind c first m)) := by
  have hfirst : first ∈ c.steps := by
    rw [hsteps]
    exact List.mem_cons_self
  induction m with
  | zero => exact .done (keeps_waits _)
  | succ m ih =>
    rw [List.range_succ, List.flatMap_append, List.flatMap_singleton]
    refine (ih (Nat.le_of_succ_le hm)).append ?_
    have hbegun : behind c first m = Function.update (resting c) first .begun := if_pos hm
    have hlist : (first :: k :: rest).Nodup := hsteps ▸ hnodup
    have hone := pipeline_layer_outline hfirst m (k :: rest) first (fun i hi => hsteps ▸ hi) hlist
      (List.nodup_cons.mp hlist).1 (fun hnil => by cases hnil)
    rw [hbegun, hsteps]
    exact hone

/-! ### A call -/

theorem layer_loop_outline (hlayers : c.layers ≠ 0) (hnodup : c.steps.Nodup)
    (hlength : 1 < c.steps.length) : Proves (Waits (resting c)) c.layer_loop (Waits (resting c)) := by
  -- `Pipeline` and `PingPong` run the same loop
  have hpipeline : ∀ first k rest, c.steps = first :: k :: rest →
      Proves (Waits (resting c))
        (c.begin_at first 0 ++ (List.range c.layers).flatMap fun L => c.pipeline_layer first L c.steps)
        (Waits (resting c)) := by
    intro first k rest hsteps
    have hfirst : first ∈ c.steps := by
      rw [hsteps]
      exact List.mem_cons_self
    have hbegin := begin_outline (c := c) (L := 0) (resting_of_mem hfirst)
    have hloop := pipeline_outline hsteps hnodup c.layers le_rfl
    have hstart : behind c first 0 = Function.update (resting c) first .begun :=
      if_pos (Nat.pos_of_ne_zero hlayers)
    have hend : behind c first c.layers = resting c := if_neg (Nat.lt_irrefl _)
    rw [hstart, hend] at hloop
    exact hbegin.append hloop
  cases hsteps : c.steps with
  | nil =>
    rw [hsteps] at hlength
    exact absurd hlength (Nat.not_lt_zero 1)
  | cons first more =>
    cases more with
    | nil =>
      rw [hsteps] at hlength
      exact absurd hlength (by simp)
    | cons k rest =>
      unfold Call.layer_loop
      cases hsched : c.sched with
      | Interleave =>
        exact Outline.flatMap (I := fun _ => Waits (resting c)) (keeps_waits _)
          fun done L rest _ => interleave_outline hnodup L
      | Pipeline =>
        have h := hpipeline first k rest hsteps
        rw [hsteps] at h ⊢
        exact h
      | PingPong =>
        have h := hpipeline first k rest hsteps
        rw [hsteps] at h ⊢
        exact h

/-- The idle streams. -/
abbrev idle (_ : Fin n) : Status := .sent

theorem placed_sent (steps : List (Fin n)) : placed steps (fun _ => .sent) = idle := by
  funext i
  unfold placed
  split
  · rfl
  · rfl

theorem decode_step_multi_outline (c : Call n) :
    Proves (Waits idle) c.decode_step_multi (Waits idle) := by
  unfold Call.decode_step_multi
  split
  · exact .done (keeps_waits _)
  next hrun =>
  have hlayers : c.layers ≠ 0 := fun h => hrun (.inl h)
  have hsome : c.steps ≠ [] := fun h => hrun (.inr (.inl h))
  have hnodup : c.steps.Nodup := by
    by_contra h
    exact hrun (.inr (.inr h))
  split
  · exact Outline.flatMap (I := fun _ => Waits idle) (keeps_waits _)
      fun done j rest _ => decode_step_outline (fun _ => rfl) rfl
  next hmulti =>
  have hlength : 1 < c.steps.length := by
    have hpos := List.length_pos_iff.mpr hsome
    have hone : c.steps.length ≠ 1 := fun h => hmulti (.inl h)
    omega
  have hprologue : Proves (Waits idle) (c.steps.flatMap fun j => Call.on j [.prologue]) (Waits idle) :=
    Outline.flatMap (I := fun _ => Waits idle) (keeps_waits _) fun done j rest _ => prologue_outline rfl
  have hepilogue : Proves (Waits (resting c)) (c.steps.flatMap fun j => Call.on j step_epilogue)
      (Waits idle) := by
    rw [← placed_sent c.steps]
    refine each_stream c.steps hnodup keeps_waits fun j rest _ _ _ => ?_
    exact epilogue_outline standing_self (standing_outside (fun _ => rfl) fun _ => rfl)
  refine (hprologue.append (.weaken (fun s h => ?_) (layer_loop_outline hlayers hnodup hlength))).append
    hepilogue
  refine Waits.weaken h.1 (fun i hi => ?_) (placed_outside fun _ => rfl)
  unfold resting placed
  split
  · exact hi.ready_of_sent
  · exact hi

theorem calls_outline (calls : List (Call n)) :
    Proves Between (calls.flatMap Call.decode_step_multi) (Waits idle) := by
  have hstart : ∀ s : State n, Between s → Waits idle s :=
    fun s h => ⟨h.ok, ahead_of_outside fun _ => rfl⟩
  refine .weaken hstart ?_
  exact Outline.flatMap (I := fun _ => Waits idle) (keeps_waits _)
    fun done c rest _ => decode_step_multi_outline c

/-- At every moment of a sequence of calls, whatever the schedule, the plans of the layers, the
    progress of the GPU and the use of the store: the timeline is below the guard of every layer
    whose last reading buffer has not completed, and its slots are not recycled. -/
theorem multi_stream_guards_hold {calls : List (Call n)} {todo : List (Fin n × Act)} {s : State n}
    (h : LTS.Reachable (decoding Between calls) (todo, s)) : GuardsHold s :=
  (calls_outline calls).reachable h

/-! ### Two streams -/

/-- Two streams on a store that holds expert 5 of layer 0. -/
def two_streams : State 2 := { engine := { streams := fun _ => {}, guard_clock := 10, store := busy_store } }

theorem two_streams_between : Between two_streams where
  store := busy_store_reachable
  clock := by decide
  readings := fun _ => rfl
  held := rfl
  streams := fun _ => ⟨rfl, rfl, Nat.le_refl _⟩

/-- A layer that stream 0 splits and stream 1 serves whole. -/
def split_call : Call 2 :=
  { steps := [0, 1]
    sched := .Pipeline
    layers := 1
    eager_moe := true
    plans := fun j _ =>
      { routing := if j = 0 then .split [⟨0, 5⟩] [] else .whole [⟨0, 5⟩] } }

/-- The early dispatch of stream 0 is submitted, its guard is in no field; a fetcher looks for a
    slot to evict. -/
theorem multi_stream_guards_hold_split :
    ∃ todo s, LTS.Reachable (decoding Between [split_call]) (todo, s) ∧
      (s.readings 11).map Reading.reader = some .unrecorded ∧
      s.engine.store.completed_timeline < 11 ∧ s.engine.store.index ⟨0, 5⟩ = some 0 := by
  have hinit : (decoding Between [split_call]).init
      ([split_call].flatMap Call.decode_step_multi, two_streams) := ⟨rfl, two_streams_between⟩
  obtain ⟨⟨todo, s⟩, hreach, hP⟩ := LTS.Reachable.of_execute (machine 2).next
    [none, none, none, none, none, none, some (.gpu 0), none, none, none, none, none,
      some (.store .evict_lru)]
    (fun c => (c.2.readings 11).map Reading.reader = some .unrecorded ∧
      c.2.held.map (fun k => (k.guard, k.slot, k.key)) = [(11, 0, ⟨0, 5⟩)])
    hinit (by decide)
  obtain ⟨hreading, hheld⟩ := of_decide_eq_true hP
  dsimp only at hreading hheld
  obtain ⟨r, hr, hreader⟩ := Option.map_eq_some_iff.mp hreading
  obtain ⟨k, hk, hkey⟩ := List.map_eq_singleton_iff.mp hheld
  have hpending : ¬ Done s r := by
    rintro ⟨f, hf, _⟩
    rw [hreader] at hf
    cases hf
  obtain ⟨hbelow, hslots⟩ := multi_stream_guards_hold hreach 11 r hr hpending
  obtain ⟨hguard, hslot, hexpert⟩ : k.guard = 11 ∧ k.slot = 0 ∧ k.key = ⟨0, 5⟩ := by
    simpa using hkey
  have hindex := (hslots k (hk ▸ List.mem_singleton.mpr rfl) hguard).2
  rw [hslot, hexpert] at hindex
  exact ⟨todo, s, hreach, hreading, hbelow, hindex⟩

end CachedMoe.Runtime.MultiStream
