import CachedMoe.Framework.Reader
import CachedMoe.Runtime.KvPack

/-! # Parked contexts on disk

    `save_parked_context` and `load_parked_context` of `runtime/session.cpp`. A file is a
    header, the token ids, the planes and a trailer; every vector has its size in bytes in
    front of it. What was saved is loaded again, and no part of it is loaded on its own. -/

namespace CachedMoe.Runtime

open CachedMoe Wire

/-! ### Contexts -/

/-- A context without its window: the token ids and the packed state. -/
structure ParkedContext where
  tokens : List UInt32 := []
  kv : KvPacked := {}
  deriving Repr, DecidableEq

def KvPackedPlane.bytes (pl : KvPackedPlane) : Nat :=
  pl.cmp_fp4.length + pl.cmp_scale.length + pl.key_fp4.length + pl.key_scale.length +
    pl.raw_rows.length * 4 + (pl.raw_cmp.length + pl.raw_key.length) * 2 +
    (pl.carry_kv.length + pl.carry_score.length) * 4

/-- `KvPacked::bytes`, from `sizeof(KvPacked)` on. -/
def KvPacked.bytes (kv : KvPacked) : Nat := 32 + (kv.planes.map KvPackedPlane.bytes).sum

def ParkedContext.bytes (p : ParkedContext) : Nat := p.kv.bytes + p.tokens.length * 4

theorem ParkedContext.bytes_pos (p : ParkedContext) : 0 < p.bytes := by
  unfold ParkedContext.bytes KvPacked.bytes
  omega

/-! ### The directory -/

structure KvDiskOptions where
  dir : Bytes := []
  model_tag : Bytes := []
  max_bytes : Nat := 0

structure KvFile where
  name : Bytes
  time : Nat
  bytes : Bytes
  deriving Repr, DecidableEq

/-- The files under `dir`, each name once. -/
abbrev KvDir := List KvFile

namespace KvDir

def find (dir : KvDir) (name : Bytes) : Option KvFile := List.find? (fun f => f.name == name) dir

def remove (dir : KvDir) (name : Bytes) : KvDir := dir.filter fun f => f.name != name

def put (dir : KvDir) (f : KvFile) : KvDir := dir.remove f.name ++ [f]

theorem find_remove (dir : KvDir) (name name' : Bytes) :
    (dir.remove name).find name' = if name' = name then none else dir.find name' := by
  unfold find remove
  rw [List.find?_filter]
  split
  next heq =>
    rw [List.find?_eq_none]
    intro f _
    simp [heq]
  next hne =>
    congr 1
    funext f
    by_cases hf : f.name = name'
    · simp [hf, hne]
    · simp [hf]

theorem find_put (dir : KvDir) (f : KvFile) (name : Bytes) :
    (dir.put f).find name = if name = f.name then some f else dir.find name := by
  have hfind : (dir.put f).find name = ((dir.remove f.name).find name).or (find [f] name) :=
    List.find?_append
  rw [hfind, find_remove]
  split
  next heq => simp [find, heq]
  next hne =>
    have hnone : find [f] name = none := by
      simp [find, Ne.symm hne]
    rw [hnone, Option.or_none]

end KvDir

def fnv1a_tag (s : Bytes) : Nat :=
  s.foldl (fun h c => (h ^^^ c.toNat) * 1099511628211 % 2 ^ 64) 1469598103934665603

/-- The bytes `session_file_name` keeps. -/
def plain_char (c : UInt8) : Bool :=
  (97 ≤ c && c ≤ 122) || (65 ≤ c && c ≤ 90) || (48 ≤ c && c ≤ 57) || c = 95 || c = 45 || c = 46

def session_file_name (name : Bytes) : Bytes :=
  let out := name.map fun c => if plain_char c then c else 95
  let out := if out = [] then chars ['d', 'e', 'f', 'a', 'u', 'l', 't'] else out
  out.take 96 ++ chars ['.', 'p', 'k', 'v']

/-- `fs::path(opt.dir) / session_file_name(name)`. -/
def KvDiskOptions.path (opt : KvDiskOptions) (name : Bytes) : Bytes :=
  opt.dir ++ [47] ++ session_file_name name

def is_kv_file (f : KvFile) : Bool :=
  f.name.length > 4 &&
    (f.name.drop (f.name.length - 4) = chars ['.', 'p', 'k', 'v'] ||
      f.name.drop (f.name.length - 4) = chars ['.', 'b', 'k', 'v'])

/-- The order of `std::sort` over pairs of time and path. -/
def KvFile.before (f g : KvFile) : Bool :=
  f.time < g.time || (f.time = g.time && decide (f.name ≤ g.name))

/-- Removes files, the oldest first, until the others fit. -/
def evict_files (max_bytes total : Nat) (dir : KvDir) : List KvFile → KvDir
  | [] => dir
  | f :: files =>
    if total ≤ max_bytes then dir
    else evict_files max_bytes (total - f.bytes.length) (dir.remove f.name) files

def enforce_disk_budget (opt : KvDiskOptions) (dir : KvDir) : KvDir :=
  if opt.max_bytes = 0 then dir
  else
    let files := dir.filter is_kv_file
    let total := (files.map fun f => f.bytes.length).sum
    if total ≤ opt.max_bytes then dir
    else evict_files opt.max_bytes total dir (files.mergeSort KvFile.before)

/-- The budget only takes files away. -/
theorem find_evict_files (max_bytes total : Nat) (dir : KvDir) (files : List KvFile) (name : Bytes) :
    (evict_files max_bytes total dir files).find name = none ∨
      (evict_files max_bytes total dir files).find name = dir.find name := by
  induction files generalizing total dir with
  | nil => exact .inr rfl
  | cons f files ih =>
    unfold evict_files
    split
    · exact .inr rfl
    · rcases ih (total - f.bytes.length) (dir.remove f.name) with hnone | hsame
      · exact .inl hnone
      · rw [hsame, KvDir.find_remove]
        split
        · exact .inl rfl
        · exact .inr rfl

theorem find_enforce_disk_budget (opt : KvDiskOptions) (dir : KvDir) (name : Bytes) :
    (enforce_disk_budget opt dir).find name = none ∨
      (enforce_disk_budget opt dir).find name = dir.find name := by
  unfold enforce_disk_budget
  split
  · exact .inr rfl
  · dsimp only
    split
    · exact .inr rfl
    · exact find_evict_files _ _ _ _ _

/-! ### Writing -/

def kKvMagic : Bytes := chars ['D', 'M', 'O', 'E', 'K', 'V', '0', '1']
def kKvEnd : Bytes := chars ['K', 'V', 'E', 'N', 'D', '0', '0', '1']
def kKvVersion : Nat := 1
def kKvVectorCap : Nat := 2 ^ 34

def wr_u32 (v : Nat) : Bytes := le 4 v
def wr_u64 (v : Nat) : Bytes := le 8 v

def wr_vec {α : Type} (w : Word α) (v : List α) : Bytes :=
  wr_u64 (v.length * w.width) ++ w.array v

/-- The elements of `raw_rows`. -/
def uint32 : Word Nat := .nat 4 Word.u32.width_pos

def wr_plane (pl : KvPackedPlane) : Bytes :=
  wr_u32 pl.layer ++ (wr_u32 pl.ratio ++ (wr_u32 pl.rows ++
    (wr_vec .u8 pl.cmp_fp4 ++ (wr_vec .u8 pl.cmp_scale ++
    (wr_vec .u8 pl.key_fp4 ++ (wr_vec .u8 pl.key_scale ++
    (wr_vec uint32 pl.raw_rows ++ (wr_vec .u16 pl.raw_cmp ++ (wr_vec .u16 pl.raw_key ++
    (wr_vec .u32 pl.carry_kv ++ wr_vec .u32 pl.carry_score))))))))))

/-- What `save_parked_context` writes. -/
def parked_bytes (model_tag : Bytes) (p : ParkedContext) : Bytes :=
  kKvMagic ++ (wr_u32 kKvVersion ++ (wr_u64 (fnv1a_tag model_tag) ++
    (wr_u32 p.tokens.length ++ (Word.u32.array p.tokens ++
    (wr_u32 p.kv.positions ++ (wr_u32 p.kv.planes.length ++
    (p.kv.planes.flatMap wr_plane ++ kKvEnd)))))))

/-- What the file system may refuse. -/
inductive SaveFault where
  | mkdir (code : Nat) | open_tmp | write | rename (code : Nat)
  deriving Repr, DecidableEq

def save_parked_context (p : ParkedContext) (opt : KvDiskOptions) (name : Bytes) (now : Nat)
    (fault : Option SaveFault) (dir : KvDir) : Result Unit × KvDir :=
  if opt.dir = [] then (fail .InvalidArgument "kv disk dir is empty", dir)
  else
    let file := session_file_name name
    let tmp := file ++ chars ['.', 't', 'm', 'p']
    let tmp_path := text (opt.path name ++ chars ['.', 't', 'm', 'p'])
    match fault with
    | some (.mkdir code) => (fail .Io ("kvdisk mkdir " ++ text opt.dir) code, dir)
    | some .open_tmp => (fail .Io ("kvdisk open " ++ tmp_path), dir)
    | some .write => (fail .Io ("kvdisk write " ++ tmp_path), dir.remove tmp)
    | some (.rename code) =>
      (fail .Io ("kvdisk rename " ++ text (opt.path name)) code, (dir.remove tmp).remove file)
    | none =>
      let saved : KvFile := ⟨file, now, parked_bytes opt.model_tag p⟩
      (.ok (), enforce_disk_budget opt ((dir.remove tmp).put saved))

/-! ### Reading -/

def rd_u32 : Reader Unit Nat := of_le <$> read 4
def rd_u64 : Reader Unit Nat := of_le <$> read 8

def rd_vec {α : Type} (w : Word α) (cap : Nat) : Reader Unit (List α) := do
  let bytes ← rd_u64
  require (bytes ≤ cap ∧ bytes % w.width = 0)
  let raw ← read bytes
  pure (w.values (bytes / w.width) raw)

def corrupt (what path : String) : Status := ⟨.Corrupt, what ++ path, 0⟩

def rd_plane_header : Reader Unit (Nat × Nat × Nat) := do
  let layer ← rd_u32
  let ratio ← rd_u32
  let rows ← rd_u32
  pure (layer, ratio, rows)

def rd_plane_vectors (layer ratio rows : Nat) : Reader Unit KvPackedPlane := do
  let cmp_fp4 ← rd_vec .u8 kKvVectorCap
  let cmp_scale ← rd_vec .u8 kKvVectorCap
  let key_fp4 ← rd_vec .u8 kKvVectorCap
  let key_scale ← rd_vec .u8 kKvVectorCap
  let raw_rows ← rd_vec uint32 kKvVectorCap
  let raw_cmp ← rd_vec .u16 kKvVectorCap
  let raw_key ← rd_vec .u16 kKvVectorCap
  let carry_kv ← rd_vec .u32 kKvVectorCap
  let carry_score ← rd_vec .u32 kKvVectorCap
  pure { layer, ratio, rows, cmp_fp4, cmp_scale, key_fp4, key_scale, raw_rows, raw_cmp, raw_key,
         carry_kv, carry_score }

def rd_plane (path : String) : Reader Status KvPackedPlane := do
  let (layer, ratio, rows) ← orFail rd_plane_header (corrupt "kvdisk short plane header " path)
  orFail (rd_plane_vectors layer ratio rows) (corrupt "kvdisk short plane " path)

/-- A file of another model is not found; any other defect makes it corrupt. -/
def rd_parked (model_tag : Bytes) (path : String) : Reader Status ParkedContext := do
  orFail (do
    let magic ← read 8
    require (magic = kKvMagic)) (corrupt "kvdisk bad magic " path)
  orFail (do
    let ver ← rd_u32
    require (ver = kKvVersion)) (corrupt "kvdisk bad version " path)
  let fp ← orFail rd_u64 (corrupt "kvdisk bad tag " path)
  orFail (require (model_tag = [] ∨ fp = fnv1a_tag model_tag))
    ⟨.NotFound, "kvdisk model mismatch " ++ path, 0⟩
  let nt ← orFail (do
    let nt ← rd_u32
    require (nt ≤ 2 ^ 24)
    pure nt) (corrupt "kvdisk bad token count " path)
  let raw ← orFail (read (nt * 4)) (corrupt "kvdisk short tokens " path)
  let (positions, planes) ← orFail (do
    let positions ← rd_u32
    let planes ← rd_u32
    require (planes ≤ 64)
    pure (positions, planes)) (corrupt "kvdisk bad plane count " path)
  let planes ← many (rd_plane path) planes
  orFail (do
    let magic ← read 8
    require (magic = kKvEnd)) (corrupt "kvdisk short trailer " path)
  pure { tokens := Word.u32.values nt raw, kv := { positions, planes } }

def load_parked_context (opt : KvDiskOptions) (name : Bytes) (dir : KvDir) : Result ParkedContext :=
  if opt.dir = [] then fail .InvalidArgument "kv disk dir is empty"
  else
    let path := text (opt.path name)
    match dir.find (session_file_name name) with
    | none => fail .NotFound ("kvdisk miss " ++ path)
    | some file => Prod.fst <$> rd_parked opt.model_tag path file.bytes

def drop_parked_context (opt : KvDiskOptions) (name : Bytes) (dir : KvDir) : Bool × KvDir :=
  if opt.dir = [] then (false, dir)
  else ((dir.find (session_file_name name)).isSome, dir.remove (session_file_name name))

/-! ### What is written is read -/

section Fields

variable {α : Type} (w : Word α)

theorem reads_u32 {v : Nat} (hv : v < 2 ^ 32) : Reads rd_u32 v (wr_u32 v) := by
  have h := (Reads.read (le 4 v) (length_le 4 v)).map of_le
  rwa [of_le_le, show (256 : Nat) ^ 4 = 2 ^ 32 from rfl, Nat.mod_eq_of_lt hv] at h

theorem reads_u64 {v : Nat} (hv : v < 2 ^ 64) : Reads rd_u64 v (wr_u64 v) := by
  have h := (Reads.read (le 8 v) (length_le 8 v)).map of_le
  rwa [of_le_le, show (256 : Nat) ^ 8 = 2 ^ 64 from rfl, Nat.mod_eq_of_lt hv] at h

theorem stable_u32 : Stable rd_u32 := (Stable.read 4).map of_le

theorem stable_u64 : Stable rd_u64 := (Stable.read 8).map of_le

/-- A vector the loader takes: not too long, and of values of its type. -/
def VecFits (v : List α) : Prop := v.length * w.width ≤ kKvVectorCap ∧ ∀ a ∈ v, w.valid a

theorem reads_vec {v : List α} (h : VecFits w v) : Reads (rd_vec w kKvVectorCap) v (wr_vec w v) := by
  obtain ⟨hcap, hvalid⟩ := h
  have hsize : v.length * w.width < 2 ^ 64 := lt_of_le_of_lt hcap (by decide)
  have hraw := Reads.read (w.array v) (w.length_array v)
  have hcount : v.length * w.width / w.width = v.length := Nat.mul_div_cancel _ w.width_pos
  have hdone : Reads (pure (w.values (v.length * w.width / w.width) (w.array v)) :
      Reader Unit (List α)) v [] := by
    rw [hcount, w.values_array hvalid]
    exact .pure v
  have hall := (reads_u64 hsize).bind (k := fun bytes => do
      require (bytes ≤ kKvVectorCap ∧ bytes % w.width = 0)
      let raw ← read bytes
      pure (w.values (bytes / w.width) raw))
    ((Reads.require ⟨hcap, Nat.mul_mod_left _ _⟩).check (hraw.bind hdone))
  rwa [List.append_nil] at hall

theorem stable_vec (cap : Nat) : Stable (rd_vec w cap) :=
  stable_u64.bind fun _ => (Stable.require _).bind fun _ => (Stable.read _).bind fun _ => .pure _

end Fields

/-- A plane with values of the types of `KvPackedPlane`, and vectors the loader takes. -/
structure KvPackedPlane.Fits (pl : KvPackedPlane) : Prop where
  layer : pl.layer < 2 ^ 32
  ratio : pl.ratio < 2 ^ 32
  rows : pl.rows < 2 ^ 32
  cmp_fp4 : VecFits .u8 pl.cmp_fp4
  cmp_scale : VecFits .u8 pl.cmp_scale
  key_fp4 : VecFits .u8 pl.key_fp4
  key_scale : VecFits .u8 pl.key_scale
  raw_rows : VecFits uint32 pl.raw_rows
  raw_cmp : VecFits .u16 pl.raw_cmp
  raw_key : VecFits .u16 pl.raw_key
  carry_kv : VecFits .u32 pl.carry_kv
  carry_score : VecFits .u32 pl.carry_score

section Plane

variable {pl : KvPackedPlane}

theorem reads_plane_header (h : pl.Fits) :
    Reads rd_plane_header (pl.layer, pl.ratio, pl.rows)
      (wr_u32 pl.layer ++ (wr_u32 pl.ratio ++ (wr_u32 pl.rows ++ []))) :=
  (reads_u32 h.layer).bind ((reads_u32 h.ratio).bind ((reads_u32 h.rows).bind (.pure _)))

theorem reads_plane_vectors (h : pl.Fits) :
    Reads (rd_plane_vectors pl.layer pl.ratio pl.rows) pl
      (wr_vec .u8 pl.cmp_fp4 ++ (wr_vec .u8 pl.cmp_scale ++ (wr_vec .u8 pl.key_fp4 ++
      (wr_vec .u8 pl.key_scale ++ (wr_vec uint32 pl.raw_rows ++ (wr_vec .u16 pl.raw_cmp ++
      (wr_vec .u16 pl.raw_key ++ (wr_vec .u32 pl.carry_kv ++
      (wr_vec .u32 pl.carry_score ++ []))))))))) := by
  refine (reads_vec _ h.cmp_fp4).bind ?_
  refine (reads_vec _ h.cmp_scale).bind ?_
  refine (reads_vec _ h.key_fp4).bind ?_
  refine (reads_vec _ h.key_scale).bind ?_
  refine (reads_vec _ h.raw_rows).bind ?_
  refine (reads_vec _ h.raw_cmp).bind ?_
  refine (reads_vec _ h.raw_key).bind ?_
  refine (reads_vec _ h.carry_kv).bind ?_
  refine (reads_vec _ h.carry_score).bind ?_
  exact .pure pl

theorem reads_plane (h : pl.Fits) (path : String) : Reads (rd_plane path) pl (wr_plane pl) := by
  have hall : Reads (rd_plane path) pl _ :=
    ((reads_plane_header h).orFail _).bind ((reads_plane_vectors h).orFail _)
  simp only [List.append_assoc, List.append_nil] at hall
  exact hall

theorem stable_plane (path : String) : Stable (rd_plane path) := by
  refine (Stable.orFail ?_ _).bind fun _ => Stable.orFail ?_ _
  · exact stable_u32.bind fun _ => stable_u32.bind fun _ => stable_u32.bind fun _ => .pure _
  · refine (stable_vec _ _).bind fun _ => (stable_vec _ _).bind fun _ => ?_
    refine (stable_vec _ _).bind fun _ => (stable_vec _ _).bind fun _ => ?_
    refine (stable_vec _ _).bind fun _ => (stable_vec _ _).bind fun _ => ?_
    refine (stable_vec _ _).bind fun _ => (stable_vec _ _).bind fun _ => ?_
    exact (stable_vec _ _).bind fun _ => .pure _

end Plane

/-! ### The whole file -/

/-- A context within the limits of the loader. -/
structure ParkedContext.Fits (p : ParkedContext) : Prop where
  tokens : p.tokens.length ≤ 2 ^ 24
  positions : p.kv.positions < 2 ^ 32
  planes : p.kv.planes.length ≤ 64
  plane : ∀ pl ∈ p.kv.planes, pl.Fits

theorem fnv1a_tag_lt (s : Bytes) : fnv1a_tag s < 2 ^ 64 := by
  have hstep : ∀ (s : Bytes) (h : Nat), h < 2 ^ 64 →
      s.foldl (fun h c => (h ^^^ c.toNat) * 1099511628211 % 2 ^ 64) h < 2 ^ 64 := by
    intro s
    induction s with
    | nil => exact fun h hh => hh
    | cons c s ih => exact fun h _ => ih _ (Nat.mod_lt _ (by decide))
  exact hstep s _ (by decide)

theorem reads_token_count {n : Nat} (hn : n ≤ 2 ^ 24) :
    Reads (do
      let nt ← rd_u32
      require (nt ≤ 2 ^ 24)
      pure nt) n (wr_u32 n ++ []) :=
  (reads_u32 (lt_of_le_of_lt hn (by decide))).bind ((Reads.require hn).check (.pure n))

theorem reads_plane_count {positions n : Nat} (hpos : positions < 2 ^ 32) (hn : n ≤ 64) :
    Reads (do
      let positions ← rd_u32
      let planes ← rd_u32
      require (planes ≤ 64)
      pure (positions, planes)) (positions, n) (wr_u32 positions ++ (wr_u32 n ++ [])) :=
  (reads_u32 hpos).bind
    ((reads_u32 (lt_of_le_of_lt hn (by decide))).bind ((Reads.require hn).check (.pure _)))

theorem reads_tokens (tokens : List UInt32) :
    Reads (read (tokens.length * 4)) (Word.u32.array tokens) (Word.u32.array tokens) :=
  .read _ (Word.u32.length_array tokens)

theorem reads_parked {p : ParkedContext} (h : p.Fits) (model_tag : Bytes) (path : String) :
    Reads (rd_parked model_tag path) p (parked_bytes model_tag p) := by
  have htokens : Word.u32.values p.tokens.length (Word.u32.array p.tokens) = p.tokens :=
    Word.u32.values_array fun _ _ => trivial
  have hdone : Reads (pure { tokens := Word.u32.values p.tokens.length (Word.u32.array p.tokens)
                             kv := { positions := p.kv.positions, planes := p.kv.planes } } :
      Reader Status ParkedContext) p [] := by
    rw [htokens]
    exact .pure p
  have hmagic : Reads (read 8 >>= fun magic => require (magic = kKvMagic)) () kKvMagic :=
    (Reads.read kKvMagic rfl).checked rfl
  have hend : Reads (read 8 >>= fun magic => require (magic = kKvEnd)) () kKvEnd :=
    (Reads.read kKvEnd rfl).checked rfl
  have hversion : Reads (rd_u32 >>= fun ver => require (ver = kKvVersion)) () (wr_u32 kKvVersion) :=
    (reads_u32 (by decide)).checked rfl
  have hall : Reads (rd_parked model_tag path) p _ :=
    (hmagic.orFail _).bind <| (hversion.orFail _).bind <|
    ((reads_u64 (fnv1a_tag_lt model_tag)).orFail _).bind <|
    ((Reads.require (.inr rfl)).orFail _).check <|
    ((reads_token_count h.tokens).orFail _).bind <|
    ((reads_tokens p.tokens).orFail _).bind <|
    ((reads_plane_count h.positions h.planes).orFail _).bind <|
    (Reads.many p.kv.planes fun pl hpl => reads_plane (h.plane pl hpl) path).bind <|
    (hend.orFail _).bind hdone
  simp only [List.append_assoc, List.append_nil] at hall
  exact hall

theorem stable_parked (model_tag : Bytes) (path : String) : Stable (rd_parked model_tag path) := by
  refine (Stable.orFail ?_ _).bind fun _ => (Stable.orFail ?_ _).bind fun _ => ?_
  · exact (Stable.read 8).bind fun _ => .require _
  · exact stable_u32.bind fun _ => .require _
  refine (stable_u64.orFail _).bind fun _ => ((Stable.require _).orFail _).bind fun _ => ?_
  refine (Stable.orFail ?_ _).bind fun _ => ((Stable.read _).orFail _).bind fun _ => ?_
  · exact stable_u32.bind fun _ => (Stable.require _).bind fun _ => .pure _
  refine (Stable.orFail ?_ _).bind fun _ => ((stable_plane path).many _).bind fun _ => ?_
  · exact stable_u32.bind fun _ => stable_u32.bind fun _ => (Stable.require _).bind fun _ => .pure _
  refine (Stable.orFail ?_ _).bind fun _ => .pure _
  exact (Stable.read 8).bind fun _ => .require _

/-! ### What is loaded fits -/

theorem returns_u32 : Returns rd_u32 fun v => v < 2 ^ 32 := by
  refine .map ((Returns.read 4).conseq ?_)
  intro bs hbs
  have hlt := of_le_lt bs
  rw [hbs] at hlt
  exact hlt

theorem returns_vec {α : Type} (w : Word α) (hw : ∀ bs, bs.length ≤ w.width → w.valid (w.decode bs)) :
    Returns (rd_vec w kKvVectorCap) (VecFits w) := by
  refine .skip fun bytes => (Returns.require _).bind fun _ hcap => .skip fun raw => .pure ⟨?_, ?_⟩
  · rw [w.length_values]
    exact (Nat.div_mul_le_self bytes w.width).trans hcap.1
  · exact w.valid_values hw _ raw

theorem valid_uint32 (bs : List UInt8) (h : bs.length ≤ uint32.width) :
    uint32.valid (uint32.decode bs) := by
  show of_le bs < 256 ^ 4
  exact (of_le_lt bs).trans_le (Nat.pow_le_pow_right (by decide) h)

theorem returns_plane (path : String) : Returns (rd_plane path) KvPackedPlane.Fits := by
  have hheader : Returns rd_plane_header fun h => h.1 < 2 ^ 32 ∧ h.2.1 < 2 ^ 32 ∧ h.2.2 < 2 ^ 32 :=
    returns_u32.bind fun _ hlayer => returns_u32.bind fun _ hratio =>
      returns_u32.bind fun _ hrows => .pure ⟨hlayer, hratio, hrows⟩
  refine (hheader.orFail _).bind fun h hh => Returns.orFail ?_ _
  have hu8 := returns_vec .u8 fun _ _ => trivial
  have hu16 := returns_vec .u16 fun _ _ => trivial
  have hu32 := returns_vec .u32 fun _ _ => trivial
  refine hu8.bind fun _ hcmp_fp4 => hu8.bind fun _ hcmp_scale => ?_
  refine hu8.bind fun _ hkey_fp4 => hu8.bind fun _ hkey_scale => ?_
  refine (returns_vec uint32 valid_uint32).bind fun _ hraw_rows => ?_
  refine hu16.bind fun _ hraw_cmp => hu16.bind fun _ hraw_key => ?_
  refine hu32.bind fun _ hcarry_kv => hu32.bind fun _ hcarry_score => .pure ?_
  exact ⟨hh.1, hh.2.1, hh.2.2, hcmp_fp4, hcmp_scale, hkey_fp4, hkey_scale, hraw_rows, hraw_cmp,
    hraw_key, hcarry_kv, hcarry_score⟩

/-- The loader takes no context that is past its limits. -/
theorem returns_parked (model_tag : Bytes) (path : String) :
    Returns (rd_parked model_tag path) ParkedContext.Fits := by
  have hcount : Returns (do
      let nt ← rd_u32
      require (nt ≤ 2 ^ 24)
      pure nt) fun nt => nt ≤ 2 ^ 24 :=
    .skip fun _ => (Returns.require _).bind fun _ hle => .pure hle
  have hplanes : Returns (do
      let positions ← rd_u32
      let planes ← rd_u32
      require (planes ≤ 64)
      pure (positions, planes)) fun h => h.1 < 2 ^ 32 ∧ h.2 ≤ 64 :=
    returns_u32.bind fun _ hpos => .skip fun _ => (Returns.require _).bind fun _ hle =>
      .pure ⟨hpos, hle⟩
  refine .skip fun _ => .skip fun _ => .skip fun _ => .skip fun _ => ?_
  refine (hcount.orFail _).bind fun nt hnt => .skip fun raw => ?_
  refine (hplanes.orFail _).bind fun h hh => ?_
  refine ((returns_plane path).many h.2).bind fun planes hall => .skip fun _ => .pure ?_
  refine ⟨?_, hh.1, hall.1 ▸ hh.2, hall.2⟩
  rw [Word.u32.length_values]
  exact hnt

theorem load_fits {opt : KvDiskOptions} {name : Bytes} {dir : KvDir} {p : ParkedContext}
    (h : load_parked_context opt name dir = .ok p) : p.Fits := by
  unfold load_parked_context at h
  split at h
  · cases h
  dsimp only at h
  split at h
  · cases h
  next file _ =>
    cases hread : rd_parked opt.model_tag (text (opt.path name)) file.bytes with
    | error e =>
      rw [hread] at h
      cases h
    | ok x =>
      rw [hread] at h
      cases h
      exact returns_parked _ _ _ _ _ hread

/-- A file for `name` with `bytes` in it. -/
def file_of (name : Bytes) (now : Nat) (bytes : Bytes) : KvFile := ⟨session_file_name name, now, bytes⟩

theorem load_file_of {opt : KvDiskOptions} (hdir : opt.dir ≠ []) {name : Bytes} {now : Nat}
    {bytes : Bytes} {dir : KvDir}
    (hfind : dir.find (session_file_name name) = some (file_of name now bytes)) :
    load_parked_context opt name dir =
      Prod.fst <$> rd_parked opt.model_tag (text (opt.path name)) bytes := by
  simp only [load_parked_context, if_neg hdir, hfind]
  rfl

/-- What was saved is loaded with the same tag, unless the budget has taken the file at once;
    and of a file that was cut off nothing is loaded. -/
theorem load_saved_context {p : ParkedContext} (h : p.Fits) {opt : KvDiskOptions} {name : Bytes}
    {now : Nat} {fault : Option SaveFault} {dir dir' : KvDir}
    (hsave : save_parked_context p opt name now fault dir = (.ok (), dir')) :
    (dir'.find (session_file_name name) = none ∨
      dir'.find (session_file_name name) =
        some (file_of name now (parked_bytes opt.model_tag p))) ∧
    (∀ any : KvDir, load_parked_context opt name
      (any.put (file_of name now (parked_bytes opt.model_tag p))) = .ok p) ∧
    ∀ (any : KvDir) bytes, bytes <+: parked_bytes opt.model_tag p →
      bytes ≠ parked_bytes opt.model_tag p →
      ∃ e, load_parked_context opt name (any.put (file_of name now bytes)) = .error e := by
  unfold save_parked_context at hsave
  split at hsave
  · cases hsave
  next hdir =>
  have hput : ∀ (any : KvDir) bytes, (any.put (file_of name now bytes)).find (session_file_name name) =
      some (file_of name now bytes) := by
    intro any bytes
    rw [KvDir.find_put]
    exact if_pos rfl
  -- the reader takes these bytes whatever stands behind them
  have hreads := reads_parked h opt.model_tag (text (opt.path name))
  refine ⟨?_, ?_, ?_⟩
  · dsimp only at hsave
    split at hsave
    · cases hsave
    · cases hsave
    · cases hsave
    · cases hsave
    · cases hsave
      rw [← hput]
      exact find_enforce_disk_budget _ _ _
  · intro any
    have hall := hreads []
    rw [List.append_nil] at hall
    rw [load_file_of hdir (hput _ _), hall]
    rfl
  · intro any bytes hpre hne
    obtain ⟨e, he⟩ := hreads.short (stable_parked _ _) hpre hne
    refine ⟨e, ?_⟩
    rw [load_file_of hdir (hput _ _), he]
    rfl

/-- The context of `tests/test_kv_replay.cpp`. -/
def unit_context : ParkedContext where
  tokens := [1, 2, 3, 4, 5]
  kv := { positions := 4
          planes := [
            { layer := 2, ratio := 2, rows := 2, cmp_fp4 := [1, 2, 3, 4], cmp_scale := [7, 8],
              key_fp4 := [9, 10], key_scale := [11, 12], raw_rows := [0, 1],
              raw_cmp := [100, 200], raw_key := [300, 400], carry_kv := [1069547520, 1075838976],
              carry_score := [3212836864, 1048576000] }] }

theorem unit_context_fits : unit_context.Fits := by
  refine ⟨by decide, by decide, by decide, ?_⟩
  intro pl hpl
  obtain rfl := List.mem_singleton.mp hpl
  have hraw : VecFits uint32 [0, 1] := ⟨by decide, by simp [uint32, Word.nat]⟩
  exact ⟨by decide, by decide, by decide, ⟨by decide, fun _ _ => trivial⟩,
    ⟨by decide, fun _ _ => trivial⟩, ⟨by decide, fun _ _ => trivial⟩,
    ⟨by decide, fun _ _ => trivial⟩, hraw, ⟨by decide, fun _ _ => trivial⟩,
    ⟨by decide, fun _ _ => trivial⟩, ⟨by decide, fun _ _ => trivial⟩,
    ⟨by decide, fun _ _ => trivial⟩⟩

/-- A directory without a quota. -/
def unit_options : KvDiskOptions := { dir := chars ['k', 'v'], model_tag := chars ['t', 'a', 'g'] }

theorem load_saved_context_unit :
    ∃ dir, save_parked_context unit_context unit_options (chars ['u']) 1 none [] = (.ok (), dir) ∧
      load_parked_context unit_options (chars ['u']) dir = .ok unit_context := by
  have hsave : save_parked_context unit_context unit_options (chars ['u']) 1 none [] =
      (.ok (), KvDir.put [] (file_of (chars ['u']) 1
        (parked_bytes unit_options.model_tag unit_context))) := rfl
  exact ⟨_, hsave, (load_saved_context unit_context_fits hsave).2.1 []⟩

end CachedMoe.Runtime
