import CachedMoe.Runtime.KvSave

/-! # Sessions on disk

    All sessions keep their contexts in one directory, each under `session_file_name` of its
    name. The map replaces what is not a plain character and cuts long names, so two names may
    share a file. Sessions whose files differ are independent: what is saved, dropped or evicted
    for others changes what a session loads only when the budget they share takes its file. -/

namespace CachedMoe.Runtime

open CachedMoe Wire

/-! ### Operations -/

/-- What changes the directory: a save with its failures, a drop, and the budget on its own. -/
inductive DiskOp where
  | save (faults : SaveFaults) (p : ParkedContext) (name : Bytes) (now : Nat)
  | drop (name : Bytes)
  | budget (stuck : Bytes → Bool)

namespace DiskOp

def apply (opt : KvDiskOptions) (dir : KvDir) : DiskOp → KvDir
  | save faults p name now => (save_parked_context_under faults p opt name now dir).2
  | drop name => (drop_parked_context opt name dir).2
  | budget stuck => enforce_disk_budget_under stuck opt dir

def run (opt : KvDiskOptions) (dir : KvDir) (ops : List DiskOp) : KvDir :=
  ops.foldl (apply opt) dir

/-- The operation is not one of a session with the file of `b`. -/
def apart (b : Bytes) : DiskOp → Prop
  | save _ _ name _ | drop name => session_file_name name ≠ session_file_name b
  | budget _ => True

/-- The operation ran the budget over a directory with too many bytes. -/
def OverQuota (opt : KvDiskOptions) (dir : KvDir) (op : DiskOp) : Prop :=
  opt.max_bytes ≠ 0 ∧ ∃ stuck full, op.apply opt dir = enforce_disk_budget_under stuck opt full ∧
    opt.max_bytes < total_bytes (full.filter is_kv_file)

variable {opt : KvDiskOptions} {b : Bytes} {dir : KvDir}

theorem find_budget (stuck : Bytes → Bool) {op : DiskOp} {full : KvDir}
    (happly : op.apply opt dir = enforce_disk_budget_under stuck opt full)
    (hfull : full.find (session_file_name b) = dir.find (session_file_name b)) :
    (op.apply opt dir).find (session_file_name b) = dir.find (session_file_name b) ∨
      (op.apply opt dir).find (session_file_name b) = none ∧ OverQuota opt dir op := by
  rcases find_enforce_under stuck opt full (session_file_name b) with hsame | ⟨hgone, hquota, hover⟩
  · left
    rw [happly, hsame, hfull]
  · right
    rw [happly]
    exact ⟨hgone, hquota, stuck, full, happly, hover⟩

/-- What a save does to the files that are neither the session's nor its temporary one: nothing,
    but for the budget of a save that goes through. -/
theorem save_frame (faults : SaveFaults) (p : ParkedContext) (opt : KvDiskOptions) (name : Bytes)
    (now : Nat) (dir : KvDir) :
    ∃ full : KvDir,
      (∀ other, other ≠ session_file_name name → other ≠ tmp_name name →
        full.find other = dir.find other) ∧
      ((save_parked_context_under faults p opt name now dir).2 = full ∨
        (save_parked_context_under faults p opt name now dir).2 =
          enforce_disk_budget_under faults.stuck opt full) := by
  have hput : ∀ (d : KvDir) (f : KvFile) (other : Bytes), other ≠ f.name →
      (d.put f).find other = d.find other := by
    intro d f other hne
    rw [KvDir.find_put, if_neg hne]
  have hremove : ∀ (d : KvDir) (gone other : Bytes), other ≠ gone →
      (d.remove gone).find other = d.find other := by
    intro d gone other hne
    rw [KvDir.find_remove, if_neg hne]
  have hclean : ∀ (d : KvDir) (other : Bytes), other ≠ tmp_name name →
      (faults.clean (tmp_name name) d).find other = d.find other := by
    intro d other hne
    unfold SaveFaults.clean
    split
    · rfl
    · exact hremove d _ _ hne
  have hfinal : ∀ (d : KvDir) (other : Bytes), other ≠ session_file_name name →
      (if faults.remove_final then d else d.remove (session_file_name name)).find other =
        d.find other := by
    intro d other hne
    split
    · rfl
    · exact hremove d _ _ hne
  -- every way out has touched the two names only
  unfold save_parked_context_under
  split
  · exact ⟨dir, fun _ _ _ => rfl, .inl rfl⟩
  dsimp only
  split
  · exact ⟨dir, fun _ _ _ => rfl, .inl rfl⟩
  split
  · exact ⟨dir, fun _ _ _ => rfl, .inl rfl⟩
  split
  · refine ⟨_, ?_, .inl rfl⟩
    intro other _ htmp
    rw [hclean _ _ htmp, hput _ _ _ htmp]
  split
  · refine ⟨_, ?_, .inl rfl⟩
    intro other hfile htmp
    rw [hclean _ _ htmp, hfinal _ _ hfile, hput _ _ _ htmp]
  · refine ⟨_, ?_, .inr rfl⟩
    intro other hfile htmp
    rw [hput _ _ _ hfile, hremove _ _ _ htmp, hfinal _ _ hfile, hput _ _ _ htmp]

/-- An operation of other sessions leaves the file of `b`, or its budget takes it. -/
theorem find_apply {op : DiskOp} (h : op.apart b) :
    (op.apply opt dir).find (session_file_name b) = dir.find (session_file_name b) ∨
      (op.apply opt dir).find (session_file_name b) = none ∧ OverQuota opt dir op := by
  cases op with
  | save faults p name now =>
    obtain ⟨full, hframe, hend⟩ := save_frame faults p opt name now dir
    have hfull := hframe (session_file_name b) h.symm (tmp_ne_session name b).symm
    rcases hend with heq | heq
    · left
      show (save_parked_context_under faults p opt name now dir).2.find _ = _
      rw [heq, hfull]
    · exact find_budget faults.stuck heq hfull
  | drop name =>
    left
    show (drop_parked_context opt name dir).2.find _ = _
    unfold drop_parked_context
    split
    · rfl
    · rw [KvDir.find_remove, if_neg (Ne.symm h)]
  | budget stuck => exact find_budget stuck rfl rfl

/-! ### Runs -/

/-- Some operation of the run took the file of `b` in its budget. -/
def Evicted (opt : KvDiskOptions) (b : Bytes) (dir : KvDir) (ops : List DiskOp) : Prop :=
  ∃ before op after, ops = before ++ op :: after ∧ OverQuota opt (run opt dir before) op ∧
    ((op.apply opt (run opt dir before)).find (session_file_name b) = none)

theorem run_append (opt : KvDiskOptions) (dir : KvDir) (ops ops' : List DiskOp) :
    run opt dir (ops ++ ops') = run opt (run opt dir ops) ops' :=
  List.foldl_append

/-- What others do leaves the file of `b`, or evicts it. -/
theorem find_run (ops : List DiskOp) (h : ∀ op ∈ ops, op.apart b) :
    (run opt dir ops).find (session_file_name b) = dir.find (session_file_name b) ∨
      (run opt dir ops).find (session_file_name b) = none ∧ Evicted opt b dir ops := by
  induction ops using List.reverseRecOn with
  | nil => exact .inl rfl
  | append_singleton ops op ih =>
    have hone : run opt dir (ops ++ [op]) = op.apply opt (run opt dir ops) := run_append opt dir ops [op]
    have hstep : (op.apply opt (run opt dir ops)).find (session_file_name b) =
        (run opt dir ops).find (session_file_name b) ∨ _ := find_apply (h op (by simp))
    have hmore : Evicted opt b dir ops → Evicted opt b dir (ops ++ [op]) := by
      rintro ⟨before, gone, after, rfl, hover, hnone⟩
      exact ⟨before, gone, after ++ [op], by simp, hover, hnone⟩
    rw [hone]
    rcases ih (fun op hop => h op (List.mem_append_left _ hop)) with hsame | ⟨hgone, hevicted⟩
    · rcases hstep with hkept | ⟨hnone, hover⟩
      · exact .inl (hkept.trans hsame)
      · exact .inr ⟨hnone, ops, op, [], rfl, hover, hnone⟩
    · rcases hstep with hkept | ⟨hnone, _⟩
      · exact .inr ⟨hkept.trans hgone, hmore hevicted⟩
      · exact .inr ⟨hnone, hmore hevicted⟩

/-- What other sessions' saves and drops, with whatever failures, and the budget leave of session
    `b`: it loads what it did before, or its file has been evicted by a budget that was exceeded
    and the load is a miss. -/
theorem sessions_apart (opt : KvDiskOptions) (b : Bytes) (dir : KvDir) (ops : List DiskOp)
    (h : ∀ op ∈ ops, op.apart b) :
    load_parked_context opt b (run opt dir ops) = load_parked_context opt b dir ∨
      opt.max_bytes ≠ 0 ∧ Evicted opt b dir ops ∧
        load_parked_context opt b (run opt dir ops) =
          fail .NotFound ("kvdisk miss " ++ text (opt.path b)) := by
  have hfile : (run opt dir ops).find (session_file_name b) = dir.find (session_file_name b) ∨ _ :=
    find_run ops h
  rcases hfile with hsame | ⟨hgone, hevicted⟩
  · exact .inl (load_congr hsame)
  · by_cases hdir : opt.dir = []
    · left
      unfold load_parked_context
      rw [if_pos hdir, if_pos hdir]
    · right
      have hquota : opt.max_bytes ≠ 0 := by
        obtain ⟨_, _, _, _, hover, _⟩ := hevicted
        exact hover.1
      refine ⟨hquota, hevicted, ?_⟩
      unfold load_parked_context
      rw [if_neg hdir, hgone]

/-! ### Names that share a file -/

/-- Two sessions whose names a file name cannot hold apart. -/
def slash_name : Bytes := chars ['a', '/', 'b']
def score_name : Bytes := chars ['a', '_', 'b']

theorem sessions_apart_unit :
    load_parked_context unit_options (chars ['u'])
      (run unit_options unit_dir [save {} unit_context slash_name 2, drop score_name]) =
        .ok unit_context := by
  have hapart : ∀ op ∈ [save {} unit_context slash_name 2, drop score_name],
      op.apart (chars ['u']) := by
    intro op hop
    rcases List.mem_pair.mp hop with rfl | rfl
    · show session_file_name slash_name ≠ _
      decide
    · show session_file_name score_name ≠ _
      decide
  rcases sessions_apart unit_options (chars ['u']) unit_dir _ hapart with hsame | ⟨hquota, _⟩
  · rw [hsame]
    exact load_unit_dir
  · exact absurd rfl hquota

/-- Saving one of them is loaded as the other. -/
theorem sanitised_names_collide :
    ¬ ∀ (opt : KvDiskOptions) (a b : Bytes) (p : ParkedContext) (now : Nat) (dir : KvDir),
      a ≠ b → load_parked_context opt b (apply opt dir (save {} p a now)) =
        load_parked_context opt b dir := by
  intro h
  have hsame := h unit_options slash_name score_name unit_context 1 [] (by decide)
  have hfind : (apply unit_options [] (save {} unit_context slash_name 1)).find
      (session_file_name score_name) =
        some (file_of score_name 1 (parked_bytes unit_options.model_tag unit_context)) := by
    decide +kernel
  have hload := load_saved unit_context_fits (by decide) hfind
  exact load_gone rfl unit_context (hsame.symm.trans hload)

end DiskOp

end CachedMoe.Runtime
