import CachedMoe.Runtime.KvFile

/-! # Saving under file-system failures

    `save_parked_context` writes a temporary file, removes the file it replaces and renames the
    temporary one to it; then the disk budget removes old files. Here every step that the file
    system can refuse may be refused, one by one. `fs::remove` before `fs::rename` is the step
    that is not undone: when the rename fails the old file is gone.

    A session's file is found under a name made from the session's; sessions with different
    file names do not see each other's files, but for the budget they share. -/

namespace CachedMoe.Runtime

open CachedMoe Wire

/-! ### The budget with files that cannot be removed -/

def total_bytes (files : List KvFile) : Nat := (files.map fun f => f.bytes.length).sum

@[simp] theorem total_bytes_nil : total_bytes [] = 0 := rfl

@[simp] theorem total_bytes_cons (f : KvFile) (files : List KvFile) :
    total_bytes (f :: files) = f.bytes.length + total_bytes files := rfl

theorem total_bytes_append (files files' : List KvFile) :
    total_bytes (files ++ files') = total_bytes files + total_bytes files' := by
  simp [total_bytes]

theorem total_bytes_filter_le (P : KvFile → Bool) (files : List KvFile) :
    total_bytes (files.filter P) ≤ total_bytes files := by
  induction files with
  | nil => exact le_rfl
  | cons f files ih =>
    rw [List.filter_cons]
    split
    · exact Nat.add_le_add_left ih _
    · exact ih.trans (Nat.le_add_left _ _)

/-- The loop of `enforce_disk_budget`; a file that cannot be removed still counts. -/
@[grind =] def evict_files_under (stuck : Bytes → Bool) (max_bytes total : Nat) (dir : KvDir) :
    List KvFile → KvDir
  | [] => dir
  | f :: files =>
    if total ≤ max_bytes then dir
    else if stuck f.name then evict_files_under stuck max_bytes total dir files
    else evict_files_under stuck max_bytes (total - f.bytes.length) (dir.remove f.name) files

def enforce_disk_budget_under (stuck : Bytes → Bool) (opt : KvDiskOptions) (dir : KvDir) : KvDir :=
  if opt.max_bytes = 0 then dir
  else
    let files := dir.filter is_kv_file
    if total_bytes files ≤ opt.max_bytes then dir
    else evict_files_under stuck opt.max_bytes (total_bytes files) dir
      (files.mergeSort KvFile.before)

/-! ### Saving -/

/-- What the file system refuses during one save: an error code where one is reported. -/
structure SaveFaults where
  mkdir : Option Nat := none
  open_tmp : Bool := false
  /-- A write or the flush fails, and this much is in the temporary file. -/
  write : Option Bytes := none
  remove_tmp : Bool := false
  remove_final : Bool := false
  rename : Option Nat := none
  /-- The files the budget cannot remove. -/
  stuck : Bytes → Bool := fun _ => false

def tmp_name (name : Bytes) : Bytes := session_file_name name ++ chars ['.', 't', 'm', 'p']

/-- The temporary file is removed when that is possible. -/
def SaveFaults.clean (faults : SaveFaults) (tmp : Bytes) (dir : KvDir) : KvDir :=
  if faults.remove_tmp then dir else dir.remove tmp

def save_parked_context_under (faults : SaveFaults) (p : ParkedContext) (opt : KvDiskOptions)
    (name : Bytes) (now : Nat) (dir : KvDir) : Result Unit × KvDir :=
  if opt.dir = [] then (fail .InvalidArgument "kv disk dir is empty", dir)
  else
    let file := session_file_name name
    let tmp := tmp_name name
    let tmp_path := text (opt.path name ++ chars ['.', 't', 'm', 'p'])
    match faults.mkdir with
    | some code => (fail .Io ("kvdisk mkdir " ++ text opt.dir) code, dir)
    | none =>
      if faults.open_tmp then (fail .Io ("kvdisk open " ++ tmp_path), dir)
      else
        match faults.write with
        | some part =>
          (fail .Io ("kvdisk write " ++ tmp_path), faults.clean tmp (dir.put ⟨tmp, now, part⟩))
        | none =>
          let bytes := parked_bytes opt.model_tag p
          let dir := dir.put ⟨tmp, now, bytes⟩
          let dir := if faults.remove_final then dir else dir.remove file
          match faults.rename with
          | some code =>
            (fail .Io ("kvdisk rename " ++ text (opt.path name)) code, faults.clean tmp dir)
          | none =>
            (.ok (), enforce_disk_budget_under faults.stuck opt
              ((dir.remove tmp).put ⟨file, now, bytes⟩))

/-- The pattern of a single failure. -/
def SaveFault.pattern : Option SaveFault → SaveFaults
  | none => {}
  | some (.mkdir code) => { mkdir := some code }
  | some .open_tmp => { open_tmp := true }
  | some .write => { write := some [] }
  | some (.rename code) => { rename := some code }

/-! ### Files by name -/

theorem KvDir.remove_remove (dir : KvDir) (name name' : Bytes) :
    (dir.remove name).remove name' = (dir.remove name').remove name := by
  unfold KvDir.remove
  rw [List.filter_filter, List.filter_filter]
  congr 1
  funext f
  exact Bool.and_comm _ _

theorem KvDir.remove_self (dir : KvDir) (name : Bytes) :
    (dir.remove name).remove name = dir.remove name := by
  unfold KvDir.remove
  rw [List.filter_filter]
  simp

theorem KvDir.remove_put (dir : KvDir) (f : KvFile) : (dir.put f).remove f.name = dir.remove f.name := by
  have hlast : KvDir.remove [f] f.name = [] := by simp [KvDir.remove]
  have happend : (dir.put f).remove f.name =
      (dir.remove f.name).remove f.name ++ KvDir.remove [f] f.name := List.filter_append _ _
  rw [happend, hlast, KvDir.remove_self, List.append_nil]

theorem tmp_ne_file (name : Bytes) : tmp_name name ≠ session_file_name name := by
  intro h
  have hlen := congrArg List.length h
  rw [tmp_name, List.length_append] at hlen
  have hfour : (chars ['.', 't', 'm', 'p']).length = 4 := rfl
  omega

theorem tmp_ne_session (name name' : Bytes) : tmp_name name ≠ session_file_name name' := by
  intro h
  have hsuffix : chars ['.', 't', 'm', 'p'] = chars ['.', 'p', 'k', 'v'] := List.append_inj_right' h rfl
  exact absurd hsuffix (by decide)

/-- Temporary files do not count against the budget. -/
theorem tmp_not_kv (name : Bytes) (now : Nat) (bytes : Bytes) :
    is_kv_file ⟨tmp_name name, now, bytes⟩ = false := by
  have hdrop : (tmp_name name).drop ((tmp_name name).length - 4) = chars ['.', 't', 'm', 'p'] := by
    rw [tmp_name, List.length_append]
    exact List.drop_left' (by simp [chars])
  unfold is_kv_file
  dsimp only
  rw [hdrop]
  simp only [Bool.and_eq_false_iff]
  exact .inr (by decide)

theorem session_is_kv (name : Bytes) (now : Nat) (bytes : Bytes) :
    is_kv_file ⟨session_file_name name, now, bytes⟩ = true := by
  obtain ⟨front, hfront, hne⟩ : ∃ front, session_file_name name = front ++ chars ['.', 'p', 'k', 'v'] ∧
      front ≠ [] := by
    refine ⟨_, rfl, ?_⟩
    rw [← List.length_pos_iff, List.length_take]
    split
    · decide
    next hname => exact Nat.lt_min.mpr ⟨by decide, List.length_pos_iff.mpr hname⟩
  have hlen : (session_file_name name).length = front.length + 4 := by
    rw [hfront, List.length_append]
    rfl
  have hdrop : (session_file_name name).drop ((session_file_name name).length - 4) =
      chars ['.', 'p', 'k', 'v'] := by
    rw [hlen, hfront]
    exact List.drop_left' (by omega)
  have hpos := List.length_pos_iff.mpr hne
  unfold is_kv_file
  dsimp only
  rw [hdrop, hlen]
  simp only [Bool.and_eq_true, decide_eq_true_eq, Bool.or_eq_true, true_or, and_true]
  omega

theorem evict_files_none_stuck (max_bytes total : Nat) (dir : KvDir) (files : List KvFile) :
    evict_files_under (fun _ => false) max_bytes total dir files =
      evict_files max_bytes total dir files := by
  induction files generalizing total dir with
  | nil => rfl
  | cons f files ih =>
    unfold evict_files_under evict_files
    simp only [Bool.false_eq_true, if_false, ih]

theorem enforce_none_stuck (opt : KvDiskOptions) (dir : KvDir) :
    enforce_disk_budget_under (fun _ => false) opt dir = enforce_disk_budget opt dir := by
  unfold enforce_disk_budget_under enforce_disk_budget
  simp only [evict_files_none_stuck, total_bytes]

/-- With at most one failure, and no failing `remove`, this is `save_parked_context`. -/
theorem save_under_single (p : ParkedContext) (opt : KvDiskOptions) (name : Bytes) (now : Nat)
    (fault : Option SaveFault) (dir : KvDir) :
    save_parked_context_under (SaveFault.pattern fault) p opt name now dir =
      save_parked_context p opt name now fault dir := by
  have hput : ∀ bytes, (dir.put ⟨tmp_name name, now, bytes⟩).remove (tmp_name name) =
      dir.remove (tmp_name name) := fun bytes => KvDir.remove_put dir ⟨tmp_name name, now, bytes⟩
  have hswap : ∀ bytes, ((dir.put ⟨tmp_name name, now, bytes⟩).remove (session_file_name name)).remove
      (tmp_name name) = (dir.remove (tmp_name name)).remove (session_file_name name) := by
    intro bytes
    rw [KvDir.remove_remove, hput]
  unfold save_parked_context_under save_parked_context
  split
  · rfl
  · cases fault with
    | none =>
      have hsaved : ∀ f : KvFile, f.name = session_file_name name → ∀ bytes,
          (((dir.put ⟨tmp_name name, now, bytes⟩).remove (session_file_name name)).remove
            (tmp_name name)).put f = (dir.remove (tmp_name name)).put f := by
        intro f hf bytes
        rw [hswap, KvDir.put, KvDir.put, hf, KvDir.remove_self]
      show (_, enforce_disk_budget_under (fun _ => false) opt _) = (_, enforce_disk_budget opt _)
      rw [enforce_none_stuck]
      exact congrArg (fun d => (Except.ok (), enforce_disk_budget opt d)) (hsaved _ rfl _)
    | some fault =>
      cases fault with
      | mkdir code => rfl
      | open_tmp => rfl
      | write => exact congrArg (Prod.mk _) (hput _)
      | rename code => exact congrArg (Prod.mk _) (hswap _)

/-! ### What the budget leaves -/

theorem find_evict_files_under (stuck : Bytes → Bool) (max_bytes total : Nat) (dir : KvDir)
    (files : List KvFile) (name : Bytes) :
    (evict_files_under stuck max_bytes total dir files).find name = none ∨
      (evict_files_under stuck max_bytes total dir files).find name = dir.find name := by
  induction files generalizing total dir with
  | nil => exact .inr rfl
  | cons f files ih =>
    unfold evict_files_under
    split
    · exact .inr rfl
    split
    · exact ih _ _
    · rcases ih (total - f.bytes.length) (dir.remove f.name) with hnone | hsame
      · exact .inl hnone
      · rw [hsame, KvDir.find_remove]
        split
        · exact .inl rfl
        · exact .inr rfl

/-- The budget only takes files away, and only when there are too many bytes. -/
theorem find_enforce_under (stuck : Bytes → Bool) (opt : KvDiskOptions) (dir : KvDir) (name : Bytes) :
    (enforce_disk_budget_under stuck opt dir).find name = dir.find name ∨
      (enforce_disk_budget_under stuck opt dir).find name = none ∧ opt.max_bytes ≠ 0 ∧
        opt.max_bytes < total_bytes (dir.filter is_kv_file) := by
  unfold enforce_disk_budget_under
  split
  · exact .inl rfl
  next hquota =>
    dsimp only
    split
    · exact .inl rfl
    next htotal =>
      rcases find_evict_files_under stuck opt.max_bytes (total_bytes (dir.filter is_kv_file)) dir
        ((dir.filter is_kv_file).mergeSort KvFile.before) name with hnone | hsame
      · exact .inr ⟨hnone, hquota, not_le.mp htotal⟩
      · exact .inl hsame

/-- A file is still there after files of other names have been removed. -/
theorem find_evict_others (stuck : Bytes → Bool) (max_bytes total : Nat) (dir : KvDir)
    (files : List KvFile) (name : Bytes) (hne : ∀ f ∈ files, f.name ≠ name) :
    (evict_files_under stuck max_bytes total dir files).find name = dir.find name := by
  induction files generalizing total dir with
  | nil => rfl
  | cons f files ih =>
    have hrest : ∀ g ∈ files, g.name ≠ name := fun g hg => hne g (List.mem_cons_of_mem _ hg)
    have hf : f.name ≠ name := hne f List.mem_cons_self
    unfold evict_files_under
    split
    · rfl
    split
    · exact ih _ _ hrest
    · rw [ih _ _ hrest, KvDir.find_remove, if_neg hf.symm]

/-- The files that stand before `own` in the order of eviction go first: `own` stays if and only
    if it cannot be removed or fits beside those that stay and those that come later. `passed`
    are the bytes of the files that could not be removed so far. -/
theorem evict_keeps (stuck : Bytes → Bool) (max_bytes : Nat) (own : KvFile) (post : List KvFile)
    (hpost : ∀ f ∈ post, f.name ≠ own.name) (pre : List KvFile) (hpre : ∀ f ∈ pre, f.name ≠ own.name)
    (passed : Nat) (dir : KvDir) (hfind : dir.find own.name = some own) :
    (evict_files_under stuck max_bytes (passed + total_bytes (pre ++ own :: post)) dir
        (pre ++ own :: post)).find own.name = some own ↔
      stuck own.name = true ∨
        passed + total_bytes (pre.filter fun f => stuck f.name) + total_bytes (own :: post) ≤
          max_bytes := by
  induction pre generalizing passed dir with
  | nil =>
    rw [List.nil_append]
    unfold evict_files_under
    split
    next hfits => exact iff_of_true hfind (.inr (by simpa using hfits))
    next hover =>
      split
      next hstuck =>
        rw [find_evict_others _ _ _ _ _ _ hpost]
        exact iff_of_true hfind (.inl hstuck)
      next hfree =>
        have hgone : (dir.remove own.name).find own.name = none := by
          rw [KvDir.find_remove, if_pos rfl]
        rw [find_evict_others _ _ _ _ _ _ hpost, hgone]
        refine iff_of_false (by simp) ?_
        rintro (hstuck | hfits)
        · exact hfree hstuck
        · exact hover (by simpa using hfits)
  | cons f pre ih =>
    have hrest : ∀ g ∈ pre, g.name ≠ own.name := fun g hg => hpre g (List.mem_cons_of_mem _ hg)
    have hf : f.name ≠ own.name := hpre f List.mem_cons_self
    have hsum := total_bytes_append pre (own :: post)
    have hle := total_bytes_filter_le (fun g => stuck g.name) pre
    rw [List.cons_append]
    unfold evict_files_under
    rw [total_bytes_cons]
    -- what the stuck ones among the files in front weigh
    have hfront : total_bytes ((f :: pre).filter fun g => stuck g.name) =
        (if stuck f.name then f.bytes.length else 0) +
          total_bytes (pre.filter fun g => stuck g.name) := by
      rw [List.filter_cons]
      split
      · rfl
      · exact (Nat.zero_add _).symm
    rw [hfront]
    split
    next hfits =>
      refine iff_of_true hfind (.inr ?_)
      split
      · omega
      · omega
    next hover =>
      by_cases hstuck : stuck f.name = true
      · rw [if_pos hstuck, if_pos hstuck, ← Nat.add_assoc, ← Nat.add_assoc]
        exact ih hrest (passed + f.bytes.length) dir hfind
      · have hgone : (dir.remove f.name).find own.name = some own := by
          rw [KvDir.find_remove, if_neg hf.symm, hfind]
        rw [if_neg hstuck, if_neg hstuck, Nat.zero_add,
          show passed + (f.bytes.length + total_bytes (pre ++ own :: post)) - f.bytes.length =
            passed + total_bytes (pre ++ own :: post) by omega]
        exact ih hrest passed _ hgone

/-! ### The order of eviction -/

theorem KvFile.before_total (f g : KvFile) : (f.before g || g.before f) = true := by
  have hname := List.le_total f.name g.name
  simp only [KvFile.before, Bool.or_eq_true, Bool.and_eq_true, decide_eq_true_eq]
  rcases Nat.lt_trichotomy f.time g.time with hlt | heq | hgt
  · exact .inl (.inl hlt)
  · rcases hname with hle | hle
    · exact .inl (.inr ⟨heq, hle⟩)
    · exact .inr (.inr ⟨heq.symm, hle⟩)
  · exact .inr (.inl hgt)

theorem KvFile.before_trans (f g h : KvFile) (hfg : f.before g = true) (hgh : g.before h = true) :
    f.before h = true := by
  simp only [KvFile.before, Bool.or_eq_true, Bool.and_eq_true, decide_eq_true_eq] at *
  rcases hfg with hlt | ⟨heq, hle⟩
  · rcases hgh with hlt' | ⟨heq', _⟩
    · exact .inl (hlt.trans hlt')
    · exact .inl (heq' ▸ hlt)
  · rcases hgh with hlt' | ⟨heq', hle'⟩
    · exact .inl (heq ▸ hlt')
    · exact .inr ⟨heq.trans heq', List.le_trans hle hle'⟩

/-- Two files that each go before the other have one name. -/
theorem KvFile.before_antisymm {f g : KvFile} (hfg : f.before g = true) (hgf : g.before f = true) :
    f.name = g.name := by
  simp only [KvFile.before, Bool.or_eq_true, Bool.and_eq_true, decide_eq_true_eq] at hfg hgf
  rcases hfg with hlt | ⟨heq, hle⟩
  · rcases hgf with hlt' | ⟨heq', _⟩
    · omega
    · omega
  · rcases hgf with hlt' | ⟨_, hle'⟩
    · omega
    · exact List.le_antisymm hle hle'

/-- A budgeted file that the eviction does not reach before `saved`, or cannot remove. -/
def outlasts (stuck : Bytes → Bool) (saved f : KvFile) : Bool :=
  is_kv_file f && f.name != saved.name && (stuck f.name || !f.before saved)

/-- The budget leaves a saved file alone: there is none, the file cannot be removed, or it fits
    beside those that outlast it. -/
def QuotaKeeps (stuck : Bytes → Bool) (opt : KvDiskOptions) (saved : KvFile) (dir : KvDir) : Prop :=
  opt.max_bytes = 0 ∨ stuck saved.name = true ∨
    saved.bytes.length + total_bytes (dir.filter (outlasts stuck saved)) ≤ opt.max_bytes

theorem total_bytes_perm {files files' : List KvFile} (h : files.Perm files') :
    total_bytes files = total_bytes files' :=
  (h.map _).sum_eq

/-- In the order of eviction, what outlasts a file is what is stuck in front of it, and what
    comes after it. -/
theorem filter_outlasts {stuck : Bytes → Bool} {saved : KvFile} {pre post : List KvFile}
    (hkv : ∀ f ∈ pre ++ saved :: post, is_kv_file f = true)
    (hpre : ∀ f ∈ pre, f.name ≠ saved.name ∧ f.before saved = true)
    (hpost : ∀ f ∈ post, f.name ≠ saved.name ∧ saved.before f = true) :
    (pre ++ saved :: post).filter (outlasts stuck saved) =
      (pre.filter fun f => stuck f.name) ++ post := by
  have hself : outlasts stuck saved saved = false := by simp [outlasts]
  rw [List.filter_append, List.filter_cons_of_neg (by simp [hself])]
  congr 1
  · apply List.filter_congr
    intro f hf
    simp [outlasts, hkv f (List.mem_append_left _ hf), hpre f hf]
  · apply List.filter_eq_self.mpr
    intro f hf
    obtain ⟨hne, hbefore⟩ := hpost f hf
    have hafter : f.before saved = false := by
      by_contra hno
      exact hne (KvFile.before_antisymm (by simpa using hno) hbefore)
    have hkvf := hkv f (List.mem_append_right _ (List.mem_cons_of_mem _ hf))
    simp [outlasts, hkvf, hne, hafter]

theorem enforce_keeps {stuck : Bytes → Bool} {opt : KvDiskOptions} {saved : KvFile} {dir : KvDir}
    (hnames : (dir.map KvFile.name).Nodup) (hmem : saved ∈ dir) (hkv : is_kv_file saved = true)
    (hfind : dir.find saved.name = some saved) :
    (enforce_disk_budget_under stuck opt dir).find saved.name = some saved ↔
      QuotaKeeps stuck opt saved dir := by
  unfold enforce_disk_budget_under QuotaKeeps
  split
  next hquota => exact iff_of_true hfind (.inl hquota)
  next hquota =>
  dsimp only
  have hsorted : ((dir.filter is_kv_file).mergeSort KvFile.before).Perm (dir.filter is_kv_file) :=
    List.mergeSort_perm _ _
  obtain ⟨pre, post, hsplit⟩ := List.append_of_mem
    (hsorted.mem_iff.mpr (List.mem_filter.mpr ⟨hmem, hkv⟩))
  have horder := List.pairwise_mergeSort KvFile.before_trans KvFile.before_total (dir.filter is_kv_file)
  rw [hsplit] at hsorted horder
  -- the names are different, so the file stands where its time and name put it
  have hnodup : ((pre ++ saved :: post).map KvFile.name).Nodup :=
    (hsorted.map _).nodup_iff.mpr ((List.filter_sublist.map _).nodup hnames)
  rw [List.map_append, List.map_cons, List.nodup_append] at hnodup
  rw [List.pairwise_append, List.pairwise_cons] at horder
  have hpre : ∀ f ∈ pre, f.name ≠ saved.name ∧ f.before saved = true := fun f hf =>
    ⟨hnodup.2.2 _ (List.mem_map_of_mem hf) _ List.mem_cons_self,
      horder.2.2 f hf saved List.mem_cons_self⟩
  have hpost : ∀ f ∈ post, f.name ≠ saved.name ∧ saved.before f = true := fun f hf =>
    ⟨fun heq => (List.nodup_cons.mp hnodup.2.1).1 (heq ▸ List.mem_map_of_mem hf),
      horder.2.1.1 f hf⟩
  have hall : ∀ f ∈ pre ++ saved :: post, is_kv_file f = true := fun f hf =>
    (List.mem_filter.mp (hsorted.mem_iff.mp hf)).2
  have htotal : total_bytes (dir.filter is_kv_file) = total_bytes (pre ++ saved :: post) :=
    (total_bytes_perm hsorted).symm
  have hlast : total_bytes (dir.filter (outlasts stuck saved)) =
      total_bytes (pre.filter fun f => stuck f.name) + total_bytes post := by
    have hboth : dir.filter (outlasts stuck saved) =
        (dir.filter is_kv_file).filter (outlasts stuck saved) := by
      rw [List.filter_filter]
      congr 1
      funext f
      cases hf : is_kv_file f with
      | true => simp
      | false => simp [outlasts, hf]
    rw [hboth, ← total_bytes_perm (hsorted.filter _), filter_outlasts hall hpre hpost,
      total_bytes_append]
  have hkept : (evict_files_under stuck opt.max_bytes (total_bytes (pre ++ saved :: post)) dir
      (pre ++ saved :: post)).find saved.name = some saved ↔ stuck saved.name = true ∨
        saved.bytes.length + total_bytes (dir.filter (outlasts stuck saved)) ≤ opt.max_bytes := by
    have h := evict_keeps stuck opt.max_bytes saved post (fun f hf => (hpost f hf).1) pre
      (fun f hf => (hpre f hf).1) 0 dir hfind
    rw [Nat.zero_add, Nat.zero_add, total_bytes_cons] at h
    rw [h, hlast]
    have hcomm : total_bytes (pre.filter fun f => stuck f.name) +
        (saved.bytes.length + total_bytes post) = saved.bytes.length +
          (total_bytes (pre.filter fun f => stuck f.name) + total_bytes post) := by omega
    rw [hcomm]
  rw [or_iff_right hquota]
  split
  next hfits =>
    have hle := total_bytes_filter_le (fun f => stuck f.name) pre
    rw [htotal, total_bytes_append, total_bytes_cons] at hfits
    exact iff_of_true hfind (.inr (by omega))
  next hover =>
    rw [htotal, hsplit]
    exact hkept

/-! ### The directory around a save -/

def UniqueNames (dir : KvDir) : Prop := (dir.map KvFile.name).Nodup

theorem UniqueNames.remove {dir : KvDir} (h : UniqueNames dir) (name : Bytes) :
    UniqueNames (dir.remove name) :=
  (List.filter_sublist.map _).nodup h

theorem UniqueNames.put {dir : KvDir} (h : UniqueNames dir) (f : KvFile) :
    UniqueNames (dir.put f) := by
  unfold UniqueNames KvDir.put
  rw [List.map_append, List.nodup_append]
  refine ⟨h.remove f.name, List.nodup_singleton _, ?_⟩
  rintro name hin name' hin' rfl
  obtain ⟨g, hg, rfl⟩ := List.mem_map.mp hin
  have hne : g.name ≠ f.name := by simpa [KvDir.remove] using (List.mem_filter.mp hg).2
  exact hne (by simpa using hin')

theorem UniqueNames.evict {max_bytes total : Nat} {dir : KvDir} (h : UniqueNames dir)
    (files : List KvFile) : UniqueNames (evict_files max_bytes total dir files) := by
  induction files generalizing total dir with
  | nil => exact h
  | cons f files ih =>
    unfold evict_files
    split
    · exact h
    · exact ih (h.remove f.name)

theorem UniqueNames.enforce {dir : KvDir} (h : UniqueNames dir) (opt : KvDiskOptions) :
    UniqueNames (enforce_disk_budget opt dir) := by
  unfold enforce_disk_budget
  split
  · exact h
  dsimp only
  split
  · exact h
  · exact h.evict _

theorem UniqueNames.save {dir : KvDir} (h : UniqueNames dir) (p : ParkedContext)
    (opt : KvDiskOptions) (name : Bytes) (now : Nat) (fault : Option SaveFault) :
    UniqueNames (save_parked_context p opt name now fault dir).2 := by
  unfold save_parked_context
  split
  · exact h
  dsimp only
  split
  · exact h
  · exact h
  · exact h.remove _
  · exact (h.remove _).remove _
  · exact ((h.remove _).put _).enforce opt

theorem filter_remove {P : KvFile → Bool} {name : Bytes} (hP : ∀ f, f.name = name → P f = false)
    (dir : KvDir) : (dir.remove name).filter P = dir.filter P := by
  unfold KvDir.remove
  rw [List.filter_filter]
  congr 1
  funext f
  by_cases hf : f.name = name
  · simp [hP f hf]
  · simp [hf]

theorem filter_put {P : KvFile → Bool} {f : KvFile} (hP : ∀ g, g.name = f.name → P g = false)
    (dir : KvDir) : (dir.put f).filter P = dir.filter P := by
  unfold KvDir.put
  rw [List.filter_append, filter_remove hP, List.filter_cons_of_neg (by simp [hP f rfl])]
  simp

theorem outlasts_tmp (stuck : Bytes → Bool) (saved : KvFile) (name : Bytes) (f : KvFile)
    (hf : f.name = tmp_name name) : outlasts stuck saved f = false := by
  obtain ⟨_, time, bytes⟩ := f
  obtain rfl : _ = tmp_name name := hf
  simp [outlasts, tmp_not_kv]

theorem outlasts_own (stuck : Bytes → Bool) (saved f : KvFile) (hf : f.name = saved.name) :
    outlasts stuck saved f = false := by
  simp [outlasts, hf]

/-- Directories with the same files to outlast `saved`. -/
theorem QuotaKeeps.congr {stuck : Bytes → Bool} {opt : KvDiskOptions} {saved : KvFile}
    {dir dir' : KvDir} (h : dir.filter (outlasts stuck saved) = dir'.filter (outlasts stuck saved)) :
    QuotaKeeps stuck opt saved dir ↔ QuotaKeeps stuck opt saved dir' := by
  unfold QuotaKeeps
  rw [h]

section Load

variable {opt : KvDiskOptions} {name : Bytes} {dir dir' : KvDir} {p : ParkedContext}

/-- Loading looks at one file. -/
theorem load_congr (h : dir'.find (session_file_name name) = dir.find (session_file_name name)) :
    load_parked_context opt name dir' = load_parked_context opt name dir := by
  unfold load_parked_context
  rw [h]

theorem load_gone (h : dir.find (session_file_name name) = none) (q : ParkedContext) :
    load_parked_context opt name dir ≠ .ok q := by
  unfold load_parked_context
  rw [h]
  split
  · rintro ⟨⟩
  · rintro ⟨⟩

theorem load_saved (hp : p.Fits) (hdir : opt.dir ≠ []) {now : Nat}
    (h : dir.find (session_file_name name) =
      some (file_of name now (parked_bytes opt.model_tag p))) :
    load_parked_context opt name dir = .ok p := by
  have hall := reads_parked hp opt.model_tag (text (opt.path name)) []
  rw [List.append_nil] at hall
  rw [load_file_of hdir h, hall]
  rfl

/-- A context that was saved is loaded exactly when it is within the loader's limits and the
    budget leaves its file. -/
theorem load_after_save_iff (hdir : opt.dir ≠ []) (hnames : UniqueNames dir) (now : Nat) :
    load_parked_context opt name (save_parked_context p opt name now none dir).2 = .ok p ↔
      p.Fits ∧ QuotaKeeps (fun _ => false) opt (file_of name now (parked_bytes opt.model_tag p)) dir := by
  have hsave : (save_parked_context p opt name now none dir).2 =
      enforce_disk_budget_under (fun _ => false) opt
        ((dir.remove (tmp_name name)).put (file_of name now (parked_bytes opt.model_tag p))) := by
    rw [enforce_none_stuck]
    unfold save_parked_context
    rw [if_neg hdir]
    rfl
  have hfind : ((dir.remove (tmp_name name)).put (file_of name now (parked_bytes opt.model_tag p))).find
      (session_file_name name) = some (file_of name now (parked_bytes opt.model_tag p)) := by
    rw [KvDir.find_put]
    exact if_pos rfl
  have hkeeps : (enforce_disk_budget_under (fun _ => false) opt
      ((dir.remove (tmp_name name)).put (file_of name now (parked_bytes opt.model_tag p)))).find
        (session_file_name name) = some (file_of name now (parked_bytes opt.model_tag p)) ↔
      QuotaKeeps (fun _ => false) opt (file_of name now (parked_bytes opt.model_tag p))
        ((dir.remove (tmp_name name)).put (file_of name now (parked_bytes opt.model_tag p))) :=
    enforce_keeps ((hnames.remove (tmp_name name)).put (file_of name now (parked_bytes opt.model_tag p)))
      (List.mem_append_right _ (List.mem_singleton.mpr rfl)) (session_is_kv name now _) hfind
  have hsame : QuotaKeeps (fun _ => false) opt (file_of name now (parked_bytes opt.model_tag p))
      ((dir.remove (tmp_name name)).put (file_of name now (parked_bytes opt.model_tag p))) ↔
      QuotaKeeps (fun _ => false) opt (file_of name now (parked_bytes opt.model_tag p)) dir :=
    QuotaKeeps.congr ((filter_put (outlasts_own _ _) _).trans (filter_remove (outlasts_tmp _ _ name) dir))
  rw [hsave, ← hsame, ← hkeeps]
  constructor
  · intro hload
    refine ⟨load_fits hload, ?_⟩
    rcases find_enforce_under (fun _ => false) opt _ (session_file_name name) with hkept | ⟨hgone, _⟩
    · exact hkept.trans hfind
    · exact absurd hload (load_gone hgone p)
  · intro h
    exact load_saved h.1 hdir h.2

/-- A context that was loaded can be saved again, under any name and tag: it is loaded as it was
    exactly when the budget leaves its file. -/
theorem saved_again (hload : load_parked_context opt name dir = .ok p) {opt' : KvDiskOptions}
    (hdir : opt'.dir ≠ []) (hnames : UniqueNames dir') (name' : Bytes) (now : Nat) :
    load_parked_context opt' name' (save_parked_context p opt' name' now none dir').2 = .ok p ↔
      QuotaKeeps (fun _ => false) opt' (file_of name' now (parked_bytes opt'.model_tag p)) dir' :=
  (load_after_save_iff hdir hnames now).trans (and_iff_right (load_fits hload))

/-! ### Old or new -/

/-- A load after the save gives the new context or the old one, and the old one when the save
    reports an error. -/
def AtomicSave (opt : KvDiskOptions) (name : Bytes) (p : ParkedContext) (dir : KvDir)
    (out : Result Unit × KvDir) : Prop :=
  (∀ q, load_parked_context opt name out.2 = .ok q →
    q = p ∨ load_parked_context opt name dir = .ok q) ∧
  match out.1 with
  | .ok _ => ∃ q, load_parked_context opt name out.2 = .ok q
  | .error _ => ∀ q, load_parked_context opt name dir = .ok q →
      load_parked_context opt name out.2 = .ok q

/-- The save stops before it removes the old file; or the rename fails and the old file was not
    removed, or held no context; or it goes through and the budget leaves the new file. -/
def SaveKeeps (faults : SaveFaults) (p : ParkedContext) (opt : KvDiskOptions) (name : Bytes)
    (now : Nat) (dir : KvDir) : Prop :=
  opt.dir = [] ∨ faults.mkdir ≠ none ∨ faults.open_tmp = true ∨ faults.write ≠ none ∨
    match faults.rename with
    | some _ => faults.remove_final = true ∨ ∀ q, load_parked_context opt name dir ≠ .ok q
    | none => QuotaKeeps faults.stuck opt (file_of name now (parked_bytes opt.model_tag p)) dir

theorem AtomicSave.of_error {e : Status}
    (h : dir'.find (session_file_name name) = dir.find (session_file_name name)) :
    AtomicSave opt name p dir (.error e, dir') := by
  have hload : load_parked_context opt name dir' = load_parked_context opt name dir := load_congr h
  refine ⟨?_, ?_⟩
  · intro q hq
    exact .inr (hload ▸ hq)
  · intro q hq
    exact hload.trans hq

theorem atomic_gone_iff {e : Status} (h : dir'.find (session_file_name name) = none) :
    AtomicSave opt name p dir (.error e, dir') ↔ ∀ q, load_parked_context opt name dir ≠ .ok q := by
  constructor
  · intro ⟨_, hkept⟩ q hq
    exact load_gone h q (hkept q hq)
  · intro hnone
    exact ⟨fun q hq => absurd hq (load_gone h q), fun q hq => absurd hq (hnone q)⟩

/-- A save that reports success. -/
theorem atomic_ok_iff (hp : p.Fits) (hdir : opt.dir ≠ []) {now : Nat} {stuck : Bytes → Bool}
    (hnames : UniqueNames dir') (hmem : file_of name now (parked_bytes opt.model_tag p) ∈ dir')
    (hfind : dir'.find (session_file_name name) =
      some (file_of name now (parked_bytes opt.model_tag p))) :
    AtomicSave opt name p dir (.ok (), enforce_disk_budget_under stuck opt dir') ↔
      QuotaKeeps stuck opt (file_of name now (parked_bytes opt.model_tag p)) dir' := by
  rw [← enforce_keeps hnames hmem (session_is_kv name now _) hfind]
  constructor
  · intro ⟨_, q, hq⟩
    rcases find_enforce_under stuck opt dir' (session_file_name name) with hsame | ⟨hgone, _⟩
    · exact hsame.trans hfind
    · exact absurd hq (load_gone hgone q)
  · intro hkept
    have hload := load_saved hp hdir hkept
    refine ⟨?_, p, hload⟩
    intro q hq
    rw [hload] at hq
    exact .inl (Except.ok.inj hq).symm

end Load

/-- A save is atomic exactly when it keeps the old file or ends with the new one: for every
    pattern of failures. -/
theorem save_atomic_iff {p : ParkedContext} (hp : p.Fits) (faults : SaveFaults)
    (opt : KvDiskOptions) (name : Bytes) (now : Nat) {dir : KvDir} (hnames : UniqueNames dir) :
    AtomicSave opt name p dir (save_parked_context_under faults p opt name now dir) ↔
      SaveKeeps faults p opt name now dir := by
  have hne := tmp_ne_file name
  unfold save_parked_context_under SaveKeeps
  split
  next hdir => exact iff_of_true (.of_error rfl) (.inl hdir)
  next hdir =>
  rw [or_iff_right hdir]
  dsimp only
  cases hmkdir : faults.mkdir with
  | some code => exact iff_of_true (.of_error rfl) (.inl (by simp))
  | none =>
  rw [or_iff_right (by simp)]
  dsimp only
  split
  next hopen => exact iff_of_true (.of_error rfl) (.inl hopen)
  next hopen =>
  rw [or_iff_right hopen]
  -- the temporary file never stands in the way of the session's
  have hclean : ∀ d : KvDir, (faults.clean (tmp_name name) d).find (session_file_name name) =
      d.find (session_file_name name) := by
    intro d
    unfold SaveFaults.clean
    split
    · rfl
    · rw [KvDir.find_remove, if_neg hne.symm]
  cases hwrite : faults.write with
  | some part =>
    refine iff_of_true (.of_error ?_) (.inl (by simp))
    rw [hclean, KvDir.find_put, if_neg hne.symm]
  | none =>
  rw [or_iff_right (by simp)]
  dsimp only
  cases hrename : faults.rename with
  | some code =>
    dsimp only
    by_cases hremove : faults.remove_final = true
    · refine iff_of_true (.of_error ?_) (.inl hremove)
      rw [hclean, if_pos hremove, KvDir.find_put, if_neg hne.symm]
    · rw [or_iff_right hremove]
      apply atomic_gone_iff
      rw [hclean, if_neg hremove, KvDir.find_remove, if_pos rfl]
  | none =>
    dsimp only
    have hsaved : ∀ d : KvDir, UniqueNames d →
        (AtomicSave opt name p dir (.ok (), enforce_disk_budget_under faults.stuck opt
          ((d.remove (tmp_name name)).put (file_of name now (parked_bytes opt.model_tag p)))) ↔
        QuotaKeeps faults.stuck opt (file_of name now (parked_bytes opt.model_tag p)) d) := by
      intro d hd
      have hfind : ((d.remove (tmp_name name)).put (file_of name now (parked_bytes opt.model_tag p))).find
          (session_file_name name) = some (file_of name now (parked_bytes opt.model_tag p)) := by
        rw [KvDir.find_put]
        exact if_pos rfl
      refine (atomic_ok_iff hp hdir ((hd.remove _).put _)
        (List.mem_append_right _ (List.mem_singleton.mpr rfl)) hfind).trans (QuotaKeeps.congr ?_)
      exact (filter_put (outlasts_own _ _) _).trans (filter_remove (outlasts_tmp _ _ name) d)
    -- neither the temporary file nor the old one is among those that outlast the new one
    have hput := filter_put (f := ⟨tmp_name name, now, parked_bytes opt.model_tag p⟩)
      (outlasts_tmp faults.stuck (file_of name now (parked_bytes opt.model_tag p)) name) dir
    have hunique := hnames.put ⟨tmp_name name, now, parked_bytes opt.model_tag p⟩
    by_cases hremove : faults.remove_final = true
    · rw [if_pos hremove]
      exact (hsaved _ hunique).trans (QuotaKeeps.congr hput)
    · rw [if_neg hremove]
      refine (hsaved _ (hunique.remove _)).trans (QuotaKeeps.congr ?_)
      exact (filter_remove (outlasts_own _ (file_of name now _)) _).trans hput

/-! ### A rename that fails -/

def rename_denied : SaveFaults := { rename := some 13 }

/-- The directory with one saved context. -/
def unit_dir : KvDir := [file_of (chars ['u']) 1 (parked_bytes unit_options.model_tag unit_context)]

theorem unit_dir_names : UniqueNames unit_dir := List.nodup_singleton _

theorem load_unit_dir : load_parked_context unit_options (chars ['u']) unit_dir = .ok unit_context :=
  load_saved unit_context_fits (by decide) rfl

theorem saved_again_unit : load_parked_context unit_options (chars ['v'])
    (save_parked_context unit_context unit_options (chars ['v']) 2 none unit_dir).2 =
      .ok unit_context :=
  (saved_again load_unit_dir (by decide) unit_dir_names (chars ['v']) 2).mpr (.inl rfl)

theorem save_atomic_iff_denied :
    ¬ AtomicSave unit_options (chars ['u']) unit_context unit_dir
      (save_parked_context_under rename_denied unit_context unit_options (chars ['u']) 2 unit_dir) := by
  rw [save_atomic_iff unit_context_fits rename_denied unit_options (chars ['u']) 2 unit_dir_names]
  rintro (hdir | hmkdir | hopen | hwrite | hremove | hnone)
  · exact absurd hdir (by decide)
  · exact hmkdir rfl
  · cases hopen
  · exact hwrite rfl
  · cases hremove
  · exact hnone unit_context load_unit_dir

/-- The rename over a saved context fails after the old file has been removed: the save reports an
    error and nothing is left to load. -/
theorem failed_rename_loses_context :
    ¬ ∀ (p : ParkedContext) (faults : SaveFaults) (opt : KvDiskOptions) (name : Bytes) (now : Nat)
      (dir : KvDir), p.Fits → UniqueNames dir →
      AtomicSave opt name p dir (save_parked_context_under faults p opt name now dir) := by
  intro h
  have hatomic := h unit_context rename_denied unit_options (chars ['u']) 2 unit_dir
    unit_context_fits unit_dir_names
  have hgone : (save_parked_context_under rename_denied unit_context unit_options (chars ['u']) 2
      unit_dir).2.find (session_file_name (chars ['u'])) = none := by decide
  exact load_gone hgone unit_context (hatomic.2 unit_context load_unit_dir)

end CachedMoe.Runtime
