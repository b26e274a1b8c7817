import CachedMoe.Text.Loaded

/-! # The round trip

    Decoding what was encoded gives the text back, with malformed UTF-8 replaced: the segments of
    the text read as its code points, a token of a segment decodes to its content, and the words
    of ordinary text to the code points they were cut from. The pre-tokenizer takes the number of
    code points of a segment in 32 bits, so a longer segment loses the rest. -/

namespace CachedMoe.Text

/-! ### Ordinary text -/

theorem read_code_points_eq {fuel : Nat} {s : Bytes} (hfuel : s.length ≤ fuel) :
    Impl.read_code_points fuel s = code_points s := by
  induction fuel generalizing s with
  | zero =>
    have hs : s = [] := List.length_eq_zero_iff.mp (Nat.le_zero.mp hfuel)
    subst hs
    rfl
  | succ fuel ih =>
    cases s with
    | nil => rfl
    | cons b s =>
      have hrest : ((b :: s).drop (utf8_next (b :: s)).2.2).length ≤ fuel :=
        Nat.le_of_lt_succ (Nat.lt_of_lt_of_le (utf8_scanner.length_drop_next_lt b s) hfuel)
      have hcode : (if (utf8_next (b :: s)).1 = .Ok then (utf8_next (b :: s)).2.1 else 0xFFFD) =
          unit_code (utf8_verdict (b :: s), (b :: s).take (utf8_next (b :: s)).2.2) := by
        rcases utf8_next_cases (b :: s) with ⟨cp, hok, hv⟩ | ⟨hr, hv⟩ | ⟨hr, hv⟩
        · rw [hv, hok]
          rfl
        · rw [hv, hr]
          rfl
        · rw [hv, hr]
          rfl
      simp only [Impl.read_code_points]
      rw [ih hrest, hcode]
      unfold code_points
      rw [units_cons_eq, List.map_cons]

section Decoding

variable {im : Impl} {added : List (Bytes × Nat)}

theorem Loaded.decode_bpe (h : Loaded im added) (word : Bytes) :
    (im.bpe word).flatMap (Tokenizer.decoded_bytes im false) = word := by
  obtain ⟨bs, hbpe, hcovers⟩ := bpe_covers h.merging h.bytewise word
  have hblock : ∀ b ∈ bs, Tokenizer.decoded_bytes im false b.c = b.bytes := by
    intro b hb
    rw [h.decodes (spell b.bytes, b.c) (List.mem_append_left _ (hcovers.spelled b hb).token),
      bytes_of_token_string_spell]
  rw [hbpe, List.flatMap_map, List.flatMap_congr hblock]
  exact hcovers.word_eq

/-- Ordinary text decodes to its code points, as many as 32 bits count. -/
theorem Loaded.decode_encode_text (h : Loaded im added) (cls : Nat → Nat) (s : Bytes) :
    (im.encode_text cls s).flatMap (Tokenizer.decoded_bytes im false) =
      encode_all ((code_points s).take ((code_points s).length % 2 ^ 32)) := by
  unfold Impl.encode_text
  simp only
  rw [read_code_points_eq (Nat.le_refl _)]
  split
  next hnil => rw [hnil]; rfl
  next =>
    rw [List.flatMap_assoc]
    calc (Impl.words cls (code_points s)).flatMap (fun p =>
          (im.bpe (encode_all p)).flatMap (Tokenizer.decoded_bytes im false))
        = (Impl.words cls (code_points s)).flatMap encode_all :=
          List.flatMap_congr fun p _ => h.decode_bpe (encode_all p)
      _ = encode_all (Impl.words cls (code_points s)).flatten := (encode_all_flatten _).symm
      _ = _ := by rw [flatten_words]

end Decoding

/-! ### Segments -/

/-- The segments `encode` goes through. -/
def Impl.segments (im : Impl) (s : Bytes) : List Segment :=
  split_on im.norm_trie (split_on im.raw_trie [{ text := s, id := none }])

/-- The ids `encode` writes for a segment. -/
def Impl.segment_ids (im : Impl) (cls : Nat → Nat) (g : Segment) : List Nat :=
  match g.id with
  | some id => [id]
  | none => im.encode_text cls g.text

/-- The code points of a segment that come back. -/
def Segment.kept (g : Segment) : List Nat :=
  if g.id.isSome then g.codes else g.codes.take (g.codes.length % 2 ^ 32)

section RoundTrip

variable {im : Impl} {added : List (Bytes × Nat)}

theorem standalone_of_content {c : Bytes} (hne : c ≠ [])
    (h : PrintableAscii c ∨ OutsideAlphabet c) : Standalone c := by
  obtain ⟨cps, rfl, hcps⟩ := content_characters h
  refine ⟨whole_encode_all hcps, ?_⟩
  cases cps with
  | nil => exact absurd rfl hne
  | cons cp cps =>
    obtain ⟨b, t, hbytes, hb⟩ := utf8_append_starts (hcps cp List.mem_cons_self)
    exact ⟨b, t ++ encode_all cps, by rw [encode_all_cons, hbytes, List.cons_append], hb⟩

theorem Loaded.splits (h : Loaded im added)
    (hcontents : ∀ e ∈ added, PrintableAscii e.1 ∨ OutsideAlphabet e.1) :
    Splits im.raw_trie added ∧ Splits im.norm_trie added := by
  have hstandalone : ∀ e ∈ added, Standalone e.1 :=
    fun e he => standalone_of_content (h.contents e he) (hcontents e he)
  exact ⟨⟨h.raw, hstandalone⟩, ⟨h.norm, hstandalone⟩⟩

theorem Loaded.codes_segments (h : Loaded im added)
    (hcontents : ∀ e ∈ added, PrintableAscii e.1 ∨ OutsideAlphabet e.1) (s : Bytes) :
    (im.segments s).flatMap Segment.codes = code_points s := by
  obtain ⟨hraw, hnorm⟩ := h.splits hcontents
  unfold Impl.segments
  rw [hnorm.codes_split_on, hraw.codes_split_on]
  exact List.append_nil _

theorem Loaded.token_segments (h : Loaded im added)
    (hcontents : ∀ e ∈ added, PrintableAscii e.1 ∨ OutsideAlphabet e.1) {s : Bytes} {g : Segment}
    {id : Nat} (hg : g ∈ im.segments s) (hid : g.id = some id) : (g.text, id) ∈ added := by
  obtain ⟨hraw, hnorm⟩ := h.splits hcontents
  rcases hnorm.token_split_on hg hid with hg | hmem
  · rcases hraw.token_split_on hg hid with hg | hmem
    · rw [List.mem_singleton.mp hg] at hid
      exact absurd hid (Option.some_ne_none id).symm
    · exact hmem
  · exact hmem

/-- The bytes a segment decodes to read as the code points kept of it, whatever is beside them. -/
theorem Loaded.decode_segment (h : Loaded im added)
    (hcontents : ∀ e ∈ added, PrintableAscii e.1 ∨ OutsideAlphabet e.1) (cls : Nat → Nat)
    {s : Bytes} {g : Segment} (hg : g ∈ im.segments s) :
    Whole ((im.segment_ids cls g).flatMap (Tokenizer.decoded_bytes im false)) ∧
      code_points ((im.segment_ids cls g).flatMap (Tokenizer.decoded_bytes im false)) =
        g.kept := by
  unfold Segment.kept Segment.codes Impl.segment_ids
  cases hid : g.id with
  | some id =>
    have hentry := h.token_segments hcontents hg hid
    have hcontent := hcontents _ hentry
    simp only [List.flatMap_singleton, Option.isSome_some, if_true]
    rw [h.decodes _ (List.mem_append_right _ hentry), content_bytes hcontent]
    obtain ⟨cps, hcps, hlt⟩ := content_characters hcontent
    refine ⟨?_, rfl⟩
    rw [hcps]
    exact whole_encode_all hlt
  | none =>
    have hvalid : ∀ cp ∈ (code_points g.text).take ((code_points g.text).length % 2 ^ 32),
        cp.isValidChar := fun cp hcp => code_points_valid g.text cp (List.mem_of_mem_take hcp)
    simp only [Option.isSome_none, Bool.false_eq_true, if_false]
    rw [h.decode_encode_text]
    exact ⟨whole_encode_all fun cp hcp => lt_of_isValidChar (hvalid cp hcp),
      code_points_encode_all hvalid⟩

/-- Decoding what was encoded gives back what is kept of each segment. -/
theorem Loaded.decode_encode (h : Loaded im added)
    (hcontents : ∀ e ∈ added, PrintableAscii e.1 ∨ OutsideAlphabet e.1) (cls : Nat → Nat)
    (s : Bytes) :
    Tokenizer.decode { impl_ := some im } (Tokenizer.encode { impl_ := some im } cls s) =
      encode_all ((im.segments s).flatMap Segment.kept) := by
  have hsegs : ∀ g ∈ im.segments s,
      Whole ((im.segment_ids cls g).flatMap (Tokenizer.decoded_bytes im false)) ∧
        code_points ((im.segment_ids cls g).flatMap (Tokenizer.decoded_bytes im false)) = g.kept :=
    fun g hg => h.decode_segment hcontents cls hg
  calc Tokenizer.decode { impl_ := some im } (Tokenizer.encode { impl_ := some im } cls s)
      = (utf8_lossy (((im.segments s).flatMap (im.segment_ids cls)).flatMap
          (Tokenizer.decoded_bytes im false))).1 := rfl
    _ = encode_all (code_points ((im.segments s).flatMap fun g =>
          (im.segment_ids cls g).flatMap (Tokenizer.decoded_bytes im false))) := by
        rw [utf8_lossy_eq, List.flatMap_assoc]
    _ = encode_all ((im.segments s).flatMap Segment.kept) := by
        rw [Whole.code_points_flatMap fun g hg => (hsegs g hg).1,
          List.flatMap_congr fun g hg => (hsegs g hg).2]

/-- Nothing is lost of the segments together exactly when nothing is lost of each. -/
theorem flatMap_kept_eq_iff (segs : List Segment) :
    segs.flatMap Segment.kept = segs.flatMap Segment.codes ↔
      ∀ g ∈ segs, g.id = none → g.codes.length < 2 ^ 32 := by
  have hle : ∀ segs : List Segment,
      (segs.flatMap Segment.kept).length ≤ (segs.flatMap Segment.codes).length := by
    intro segs
    induction segs with
    | nil => exact Nat.le_refl 0
    | cons g segs ih =>
      have hg : g.kept.length ≤ g.codes.length := by
        unfold Segment.kept
        split
        · exact Nat.le_refl _
        · exact List.length_take_le' _ _
      rw [List.flatMap_cons, List.flatMap_cons, List.length_append, List.length_append]
      omega
  constructor
  · intro heq
    have hlen := congrArg List.length heq
    -- the lengths are enough: no segment gets longer
    clear heq
    induction segs with
    | nil => exact fun g hg => absurd hg List.not_mem_nil
    | cons g segs ih =>
      have hrest := hle segs
      rw [List.flatMap_cons, List.flatMap_cons, List.length_append, List.length_append] at hlen
      intro g' hg' hid
      rcases List.mem_cons.mp hg' with rfl | hg'
      · have hkept : g'.kept = g'.codes.take (g'.codes.length % 2 ^ 32) := by
          unfold Segment.kept
          rw [hid]
          rfl
        rw [hkept, List.length_take] at hlen
        have hmod := Nat.mod_lt g'.codes.length (Nat.two_pow_pos 32)
        omega
      · have hg : g.kept.length ≤ g.codes.length := by
          have hone := hle [g]
          simpa using hone
        exact ih (by omega) g' hg' hid
  · intro hshort
    apply List.flatMap_congr
    intro g hg
    unfold Segment.kept
    cases hid : g.id with
    | some id => rfl
    | none =>
      rw [Nat.mod_eq_of_lt (hshort g hg hid), List.take_length]
      rfl

theorem Loaded.segments_short (h : Loaded im added)
    (hcontents : ∀ e ∈ added, PrintableAscii e.1 ∨ OutsideAlphabet e.1) {s : Bytes}
    (hs : (code_points s).length < 2 ^ 32) :
    ∀ g ∈ im.segments s, g.id = none → (code_points g.text).length < 2 ^ 32 := by
  intro g hg _
  have hsub : g.codes.Sublist ((im.segments s).flatMap Segment.codes) :=
    List.sublist_flatten_of_mem (List.mem_map_of_mem hg)
  rw [h.codes_segments hcontents] at hsub
  exact Nat.lt_of_le_of_lt hsub.length_le hs

theorem Loaded.round_trip_iff (h : Loaded im added)
    (hcontents : ∀ e ∈ added, PrintableAscii e.1 ∨ OutsideAlphabet e.1) (cls : Nat → Nat)
    (s : Bytes) :
    Tokenizer.decode { impl_ := some im } (Tokenizer.encode { impl_ := some im } cls s) =
        (utf8_lossy s).1 ↔
      ∀ g ∈ im.segments s, g.id = none → (code_points g.text).length < 2 ^ 32 := by
  have hkept : ∀ cp ∈ (im.segments s).flatMap Segment.kept, cp.isValidChar := by
    intro cp hcp
    obtain ⟨g, -, hg⟩ := List.mem_flatMap.mp hcp
    unfold Segment.kept at hg
    split at hg
    · exact code_points_valid g.text cp hg
    · exact code_points_valid g.text cp (List.mem_of_mem_take hg)
  rw [h.decode_encode hcontents, utf8_lossy_eq, ← h.codes_segments hcontents]
  constructor
  · intro heq
    -- Both sides are encodings of scalar values, so the code points are the same.
    have hcodes := congrArg code_points heq
    rw [code_points_encode_all hkept, h.codes_segments hcontents,
      code_points_encode_all (code_points_valid s), ← h.codes_segments hcontents] at hcodes
    exact (flatMap_kept_eq_iff _).mp hcodes
  · intro hshort
    rw [(flatMap_kept_eq_iff _).mpr hshort]

end RoundTrip

/-! ### The loaded tokenizer -/

namespace Tokenizer

def vocab (t : Tokenizer) : Table Bytes Nat :=
  match t.impl_ with
  | none => []
  | some im => im.vocab

def segments (t : Tokenizer) (s : Bytes) : List Segment :=
  match t.impl_ with
  | none => []
  | some im => im.segments s

/-- Decoding what was encoded is the lossy decode of the text exactly when every stretch of
    ordinary text between added tokens has fewer than 2^32 code points, as every stretch of a
    shorter text has; then valid UTF-8 comes back as it was. -/
theorem decode_encode_iff_segments_short {path : Bytes} {doc : JsonValue} {t : Tokenizer}
    (hload : Tokenizer.load path (.ok doc) = .ok t)
    (hcontents : ∀ e ∈ added_entries doc, PrintableAscii e.1 ∨ OutsideAlphabet e.1)
    (hconsistent : Consistent (t.vocab ++ added_entries doc))
    (hfits : Fits t.vocab (added_entries doc)) (cls : Nat → Nat) (s : Bytes) :
    (t.decode (t.encode cls s) = (utf8_lossy s).1 ↔
        ∀ g ∈ t.segments s, g.id = none → (code_points g.text).length < 2 ^ 32) ∧
      ((code_points s).length < 2 ^ 32 → t.decode (t.encode cls s) = (utf8_lossy s).1) ∧
      ((∀ g ∈ t.segments s, g.id = none → (code_points g.text).length < 2 ^ 32) →
        valid_utf8 s → t.decode (t.encode cls s) = s) := by
  obtain ⟨doc', hdoc, hload⟩ := bind_eq_ok hload
  cases hdoc
  obtain ⟨im, him, ht⟩ := bind_eq_ok hload
  cases ht
  have hloaded := loaded_of_load_impl him hconsistent hfits
  have hiff := hloaded.round_trip_iff hcontents cls s
  refine ⟨hiff, ?_, ?_⟩
  · intro hs
    exact hiff.mpr (hloaded.segments_short hcontents hs)
  · intro hshort hvalid
    rw [hiff.mpr hshort, utf8_lossy_of_valid hvalid]

end Tokenizer

/-! ### A file of the 256 bytes -/

section ByteFile

def number (n : Nat) : JsonValue :=
  .number { raw := utf8 (toString n), as_int64 := some n, as_uint64 := some n }

def split_step (rx : Bytes) : JsonValue :=
  .object [(utf8 "type", .string (utf8 "Split")), (utf8 "behavior", .string (utf8 "Isolated")),
    (utf8 "pattern", .object [(utf8 "Regex", .string rx)])]

def byte_level : JsonValue :=
  .object [(utf8 "type", .string (utf8 "ByteLevel")), (utf8 "use_regex", .bool false),
    (utf8 "add_prefix_space", .bool false)]

/-- The characters of the bytes, with the bytes as ids. -/
def byte_vocab : Table Bytes Nat := (List.range 256).map fun b => (utf8_append (to_char b), b)

def byte_model : JsonValue :=
  .object [(utf8 "type", .string (utf8 "BPE")), (utf8 "dropout", .null),
    (utf8 "vocab", .object (byte_vocab.map fun e => (e.1, number e.2))),
    (utf8 "merges", .array [])]

def byte_file (added : List JsonValue) : JsonValue :=
  .object [(utf8 "model", byte_model),
    (utf8 "pre_tokenizer", .object
      [(utf8 "pretokenizers", .array (kWant.map split_step ++ [byte_level]))]),
    (utf8 "added_tokens", .array added)]

/-- `<s>`, with id 256. -/
def sentence_start : JsonValue :=
  .object [(utf8 "id", number 256), (utf8 "content", .string (utf8 "<s>")),
    (utf8 "special", .bool true)]

theorem number_as_uint : ∀ n < 512, (number n).as_uint = .ok n := by
  decide +kernel

theorem utf8_append_inj {a b : Nat} (ha : a.isValidChar) (hb : b.isValidChar)
    (h : utf8_append a = utf8_append b) : a = b := by
  have ha' := utf8_next_utf8_append ha []
  rw [h, utf8_next_utf8_append hb []] at ha'
  exact (congrArg (fun r => r.2.1) ha').symm

theorem nodup_byte_vocab : byte_vocab.keys.Nodup := by
  unfold byte_vocab Table.keys
  rw [List.map_map]
  apply List.Nodup.map_on ?_ List.nodup_range
  intro a ha b hb h
  have ha := List.mem_range.mp ha
  have hb := List.mem_range.mp hb
  exact to_char_inj ha hb (utf8_append_inj (to_char_valid ha) (to_char_valid hb) h)

theorem mem_byte_vocab {e : Bytes × Nat} (h : e ∈ byte_vocab) :
    e.2 < 256 ∧ e.1 = utf8_append (to_char e.2) := by
  obtain ⟨b, hb, rfl⟩ := List.mem_map.mp h
  exact ⟨List.mem_range.mp hb, rfl⟩

theorem read_vocab_of_nodup {es vocab : Table Bytes Nat} (m : Nat)
    (hnodup : (Table.keys (vocab ++ es)).Nodup) (hes : ∀ e ∈ es, e.2 < 512) :
    read_vocab (es.map fun e => (e.1, number e.2)) vocab m =
      .ok (vocab ++ es, es.foldl (fun m e => max m e.2) m) := by
  induction es generalizing vocab m with
  | nil => rw [List.append_nil]; rfl
  | cons e es ih =>
    have hid := hes e List.mem_cons_self
    have hnew : vocab.find e.1 = none := by
      apply Table.find_none_iff.mpr
      intro e' he' heq
      have hkeys : Table.keys (vocab ++ e :: es) = Table.keys vocab ++ e.1 :: Table.keys es := by
        simp [Table.keys]
      rw [hkeys, List.nodup_append] at hnodup
      exact hnodup.2.2 e'.1 (List.mem_map_of_mem he') e.1 List.mem_cons_self heq
    have hemplace : vocab.emplace e.1 e.2 = vocab ++ [e] := by
      unfold Table.emplace
      rw [hnew]
      rfl
    have hmod : e.2 % 2 ^ 32 = e.2 := Nat.mod_eq_of_lt (by omega)
    simp only [List.map_cons, read_vocab]
    rw [number_as_uint e.2 hid]
    simp only [hmod, hemplace]
    rw [show vocab ++ e :: es = vocab ++ [e] ++ es by simp] at hnodup ⊢
    exact ih _ hnodup fun e' he' => hes e' (List.mem_cons_of_mem e he')

theorem bind_ok {ε α β : Type} {x : Except ε α} {f : α → Except ε β} {a : α} {b : β}
    (hx : x = .ok a) (hf : f a = .ok b) : x >>= f = .ok b := by
  rw [hx]
  exact hf

theorem write_vocab_ok {es : List (Bytes × Nat)} {s : Strings} (h : ∀ e ∈ es, e.2 < s.str.length) :
    ∃ s', write_vocab es s = .ok s' ∧ s'.str.length = s.str.length := by
  induction es generalizing s with
  | nil => exact ⟨s, rfl, rfl⟩
  | cons e es ih =>
    obtain ⟨s₁, hfirst, hlen₁⟩ : ∃ s₁, s.write e.2 e.1 (fun f => { f with present := true }) = .ok s₁ ∧
        s₁.str.length = s.str.length :=
      ⟨_, if_pos (h e List.mem_cons_self), List.length_set⟩
    obtain ⟨s₂, hrest, hlen₂⟩ := ih fun e' he' => hlen₁ ▸ h e' (List.mem_cons_of_mem e he')
    exact ⟨s₂, bind_ok hfirst hrest, hlen₂.trans hlen₁⟩

theorem read_byte_ids_ok {vocab : Table Bytes Nat} {bs : List Nat} (hnodup : vocab.keys.Nodup)
    (h : ∀ b ∈ bs, (utf8_append (to_char b), b) ∈ vocab) : read_byte_ids vocab bs = .ok bs := by
  induction bs with
  | nil => rfl
  | cons b bs ih =>
    rw [read_byte_ids, Table.find_of_mem hnodup (h b List.mem_cons_self)]
    simp only [ih fun b' hb' => h b' (List.mem_cons_of_mem b hb')]
    rfl

theorem byte_mem_byte_vocab {b : Nat} (hb : b ∈ List.range 256) :
    (utf8_append (to_char b), b) ∈ byte_vocab :=
  List.mem_map_of_mem hb

/-- The file loads, with the tries of its added tokens. -/
theorem load_byte_file {added : List JsonValue} {n : Nat}
    (hn : added.foldl (fun m a => max m (added_id a)) 255 + 1 = n) (hfits : 256 ≤ n ∧ n < 2 ^ 32)
    (hadd : ∀ strings : Strings, strings.str.length = n →
      ∃ st, add_tokens added { strings } = .ok st) :
    ∃ im strings st, load_impl [] (byte_file added) = .ok im ∧ im.vocab = byte_vocab ∧
      add_tokens added { strings } = .ok st ∧ im.raw_trie = st.raw_trie ∧
      im.norm_trie = st.norm_trie := by
  have hread : read_vocab (byte_vocab.map fun e => (e.1, number e.2)) [] 0 =
      .ok (byte_vocab, 255) := by
    have hmax : byte_vocab.foldl (fun m e => max m e.2) 0 = 255 := by decide +kernel
    have hnodup : (Table.keys ([] ++ byte_vocab)).Nodup := nodup_byte_vocab
    rw [read_vocab_of_nodup 0 hnodup fun e he => Nat.lt_trans (mem_byte_vocab he).1 (by omega),
      hmax]
    rfl
  have hsize : (added.foldl (fun m a => max m (added_id a)) 255 + 1) % 2 ^ 32 = n := by
    rw [hn, Nat.mod_eq_of_lt hfits.2]
  have hids : ∀ e ∈ byte_vocab, e.2 < (List.replicate n ([] : Bytes)).length := by
    intro e he
    rw [List.length_replicate]
    exact Nat.lt_of_lt_of_le (mem_byte_vocab he).1 hfits.1
  obtain ⟨strings, hstrings, hlen⟩ := write_vocab_ok
    (s := { str := List.replicate n [], flags := List.replicate n {} }) hids
  rw [List.length_replicate] at hlen
  obtain ⟨st, hst⟩ := hadd strings hlen
  have hids := read_byte_ids_ok nodup_byte_vocab fun b hb => byte_mem_byte_vocab hb
  refine ⟨?_, strings, st, ?_, ?_, hst, ?_, ?_⟩
  · exact {
      vocab_size := n, str := st.strings.str, bytes := fill_bytes st.strings,
      flags := st.strings.flags, vocab := byte_vocab, added := st.added, merges := [],
      byte_id := List.range 256, raw_trie := st.raw_trie, norm_trie := st.norm_trie,
      absent := fill_bytes_absent st.strings }
  · unfold load_impl
    -- the parts of the loader, in its order
    have hmodel : check_model [] (byte_file added) = .ok byte_model := rfl
    have hpre : check_pre_tokenizer [] (byte_file added) = .ok () := rfl
    have hnorm : check_normalizer [] (byte_file added) = .ok () := rfl
    have hvobj : Load.of ((byte_model.at_key (utf8 "vocab")).bind JsonValue.as_object) =
        .ok (byte_vocab.map fun e => (e.1, number e.2)) := rfl
    have haarr : Load.of (((byte_file added).at_key (utf8 "added_tokens")).bind
        JsonValue.as_array) = .ok added := rfl
    have hmarr : Load.of ((byte_model.at_key (utf8 "merges")).bind JsonValue.as_array) =
        .ok [] := rfl
    refine bind_ok hmodel (bind_ok hpre (bind_ok hnorm (bind_ok hvobj (bind_ok hread
      (bind_ok haarr ?_)))))
    simp only [hsize]
    exact bind_ok hstrings (bind_ok hst (bind_ok hids (bind_ok hmarr rfl)))
  all_goals rfl

theorem consistent_byte_vocab {added : List (Bytes × Nat)}
    (h : ∀ e ∈ added, e = (utf8 "<s>", 256)) : Consistent (byte_vocab ++ added) := by
  -- Every id has one string: a byte its character, 256 the added token.
  have hname : ∀ e ∈ byte_vocab ++ added,
      e.1 = if e.2 < 256 then utf8_append (to_char e.2) else utf8 "<s>" := by
    intro e he
    rcases List.mem_append.mp he with he | he
    · rw [if_pos (mem_byte_vocab he).1]
      exact (mem_byte_vocab he).2
    · rw [h e he]
      rfl
  intro e he e' he' hid
  rw [hname e he, hname e' he', hid]

theorem byte_vocab_fits {e : Bytes × Nat} (h : e ∈ byte_vocab) : e.1.length < 2 ^ 32 := by
  rw [(mem_byte_vocab h).2]
  unfold utf8_append
  repeat' split
  all_goals simp

end ByteFile

/-! ### A text of 2^32 letters -/

section LongText

theorem encode_all_letters (n : Nat) : encode_all (List.replicate n 97) = List.replicate n 97 := by
  induction n with
  | zero => rfl
  | succ n ih => rw [List.replicate_succ, encode_all_cons, ih, List.replicate_succ]; rfl

theorem valid_letters (n : Nat) : ∀ cp ∈ List.replicate n 97, cp.isValidChar := by
  intro cp hcp
  rw [List.eq_of_mem_replicate hcp]
  exact Or.inl (by decide)

theorem code_points_letters (n : Nat) :
    code_points (List.replicate n 97) = List.replicate n 97 := by
  rw [← encode_all_letters, code_points_encode_all (valid_letters n)]

theorem valid_utf8_letters (n : Nat) : valid_utf8 (List.replicate n 97) :=
  valid_utf8_iff.mpr ⟨_, valid_letters n, (encode_all_letters n).symm⟩

/-- A stretch of ordinary text whose code points 32 bits count as none has no words. -/
theorem encode_text_wrapped (im : Impl) (cls : Nat → Nat) {s : Bytes}
    (h : (code_points s).length % 2 ^ 32 = 0) : im.encode_text cls s = [] := by
  unfold Impl.encode_text
  simp only
  rw [read_code_points_eq (Nat.le_refl _)]
  split
  · rfl
  · unfold Impl.words
    rw [h, List.take_zero]
    rfl

theorem encode_letters {im : Impl} (hraw : im.raw_trie = {}) (hnorm : im.norm_trie = {})
    (cls : Nat → Nat) {n : Nat} (hn : n % 2 ^ 32 = 0) :
    Tokenizer.encode { impl_ := some im } cls (List.replicate n 97) = [] := by
  have hsegs : split_on im.norm_trie (split_on im.raw_trie [{ text := List.replicate n 97, id := none }])
      = [{ text := List.replicate n 97, id := none }] := by
    rw [hraw, hnorm]
    rfl
  unfold Tokenizer.encode
  simp only
  rw [hsegs, List.flatMap_singleton]
  apply encode_text_wrapped
  rw [code_points_letters, List.length_replicate, hn]

theorem lossy_letters_ne {n : Nat} (hn : n ≠ 0) : (utf8_lossy (List.replicate n 97)).1 ≠ [] := by
  rw [utf8_lossy_of_valid (valid_utf8_letters n)]
  intro hnil
  have hlen := congrArg List.length hnil
  rw [List.length_replicate] at hlen
  exact hn hlen

end LongText

namespace Tokenizer

theorem load_of_load_impl {path : Bytes} {doc : JsonValue} {im : Impl}
    (h : load_impl path doc = .ok im) :
    Tokenizer.load path (.ok doc) = .ok { impl_ := some im } :=
  bind_ok rfl (bind_ok h rfl)

/-- A file with one added token, and a text with the token in it and a malformed byte at its
    end. -/
theorem decode_encode_iff_segments_short_byte_file :
    ∃ t, Tokenizer.load [] (.ok (byte_file [sentence_start])) = .ok t ∧
      (∀ e ∈ added_entries (byte_file [sentence_start]),
        PrintableAscii e.1 ∨ OutsideAlphabet e.1) ∧
      Consistent (t.vocab ++ added_entries (byte_file [sentence_start])) ∧
      Fits t.vocab (added_entries (byte_file [sentence_start])) ∧
      t.decode (t.encode (fun _ => 0) (utf8 "a<s>é" ++ [0xFF])) =
        utf8 "a<s>é" ++ [0xEF, 0xBF, 0xBD] := by
  have hadd : ∀ strings : Strings, strings.str.length = 257 →
      ∃ st, add_tokens [sentence_start] { strings } = .ok st := by
    intro strings hlen
    have hwrite : strings.write 256 (utf8 "<s>") (fun f =>
        { present := true, added := true, special := f.special || true }) = .ok _ :=
      if_pos (by rw [hlen]; decide)
    exact ⟨_, bind_ok (bind_ok hwrite rfl) rfl⟩
  obtain ⟨im, -, -, hload, hvocab, -⟩ := load_byte_file (by decide) (by decide) hadd
  have hadded : added_entries (byte_file [sentence_start]) = [(utf8 "<s>", 256)] := by
    decide
  have hcontents : ∀ e ∈ added_entries (byte_file [sentence_start]),
      PrintableAscii e.1 ∨ OutsideAlphabet e.1 := by
    rw [hadded]
    intro e he
    rw [List.mem_singleton.mp he]
    left
    unfold PrintableAscii
    decide +kernel
  have hconsistent : Consistent (im.vocab ++ added_entries (byte_file [sentence_start])) := by
    rw [hvocab, hadded]
    exact consistent_byte_vocab fun e he => List.mem_singleton.mp he
  have hfits : Fits im.vocab (added_entries (byte_file [sentence_start])) := by
    rw [hvocab, hadded]
    exact { vocab := fun e he => byte_vocab_fits he, added := by decide }
  refine ⟨{ impl_ := some im }, load_of_load_impl hload, hcontents, hconsistent, hfits, ?_⟩
  rw [(decode_encode_iff_segments_short (load_of_load_impl hload) hcontents hconsistent hfits
    (fun _ => 0) (utf8 "a<s>é" ++ [0xFF])).2.1 (by decide)]
  decide

/-- 2^32 letters are one stretch of ordinary text: valid UTF-8, and encoded as nothing. -/
theorem long_text_is_lost :
    ∃ t, Tokenizer.load [] (.ok (byte_file [])) = .ok t ∧
      (∀ e ∈ added_entries (byte_file []), PrintableAscii e.1 ∨ OutsideAlphabet e.1) ∧
      Consistent (t.vocab ++ added_entries (byte_file [])) ∧
      Fits t.vocab (added_entries (byte_file [])) ∧
      valid_utf8 (List.replicate (2 ^ 32) 97) ∧
      t.encode (fun _ => 0) (List.replicate (2 ^ 32) 97) = [] ∧
      t.decode (t.encode (fun _ => 0) (List.replicate (2 ^ 32) 97)) ≠
        (utf8_lossy (List.replicate (2 ^ 32) 97)).1 := by
  have hadd : ∀ strings : Strings, strings.str.length = 256 →
      ∃ st, add_tokens [] { strings } = .ok st := fun strings _ => ⟨_, rfl⟩
  have hsize : ([] : List JsonValue).foldl (fun m a => max m (added_id a)) 255 + 1 = 256 := rfl
  obtain ⟨im, strings, st, hload, hvocab, hst, hraw, hnorm⟩ :=
    load_byte_file hsize (by decide) hadd
  have hadded : added_entries (byte_file []) = [] := rfl
  cases hst
  have hencode := encode_letters hraw hnorm (fun _ => 0) (Nat.mod_self (2 ^ 32))
  refine ⟨{ impl_ := some im }, load_of_load_impl hload, ?_, ?_, ?_, valid_utf8_letters _,
    hencode, ?_⟩
  · rw [hadded]
    exact fun e he => absurd he List.not_mem_nil
  · show Consistent (im.vocab ++ added_entries (byte_file []))
    rw [hvocab, hadded]
    exact consistent_byte_vocab fun e he => absurd he List.not_mem_nil
  · show Fits im.vocab (added_entries (byte_file []))
    rw [hvocab, hadded]
    exact { vocab := fun e he => byte_vocab_fits he, added := by decide }
  · rw [hencode]
    exact (lossy_letters_ne (by decide)).symm

end Tokenizer

end CachedMoe.Text
