import CachedMoe.Text.Tokenizer

/-! # Streaming decode

    `StreamDecoder` of `text/tokenizer.h`: each `push` returns the text that became complete with
    its token and holds an incomplete sequence back. What it has read so far always splits into
    the units it has returned and the beginning it holds, and that is what makes the pieces add
    up to `Tokenizer::decode` of the whole sequence. -/

namespace CachedMoe.Text

structure StreamDecoder where
  tok_ : Tokenizer
  skip_special_ : Bool
  pending_ : Bytes := []

namespace StreamDecoder

def push (sd : StreamDecoder) (id : Nat) : Bytes × StreamDecoder :=
  if id ≥ sd.tok_.vocab_size then ([], sd)
  else if sd.skip_special_ && sd.tok_.is_special id then ([], sd)
  else
    let pending := sd.pending_ ++ sd.tok_.token_bytes id
    let (out, held) := utf8_lossy pending true
    (out, { sd with pending_ := pending.drop (pending.length - held) })

def flush (sd : StreamDecoder) : Bytes × StreamDecoder :=
  ((utf8_lossy sd.pending_).1, { sd with pending_ := [] })

/-- The chunks a sequence of `push` calls returns, and the decoder after them. -/
def push_all (sd : StreamDecoder) : List Nat → List Bytes × StreamDecoder
  | [] => ([], sd)
  | id :: ids =>
    let (chunk, sd) := sd.push id
    let (chunks, sd) := sd.push_all ids
    (chunk :: chunks, sd)

/-- Every chunk of a whole stream: the pushes, then the flush. -/
def stream (sd : StreamDecoder) (ids : List Nat) : List Bytes :=
  (sd.push_all ids).1 ++ [(sd.push_all ids).2.flush.1]

/-! ### One push -/

/-- What one id adds to the text of the stream: the bytes `decode` appends for it. -/
def fed (sd : StreamDecoder) (id : Nat) : Bytes :=
  match sd.tok_.impl_ with
  | none => []
  | some im => Tokenizer.decoded_bytes im sd.skip_special_ id

/-- `push` does not ask whether the id has a token; an id without one has no bytes. -/
theorem fed_eq_token_bytes {sd : StreamDecoder} {id : Nat} (hid : id < sd.tok_.vocab_size)
    (hskip : (sd.skip_special_ && sd.tok_.is_special id) = false) :
    sd.fed id = sd.tok_.token_bytes id := by
  unfold fed Tokenizer.token_bytes
  unfold Tokenizer.is_special at hskip
  unfold Tokenizer.vocab_size at hid
  cases himpl : sd.tok_.impl_ with
  | none => rfl
  | some im =>
    rw [himpl] at hid hskip
    simp only at hid hskip ⊢
    rw [decide_eq_true hid, Bool.true_and] at hskip
    unfold Tokenizer.decoded_bytes
    rw [if_neg (Nat.not_le.mpr hid)]
    cases hpresent : (im.flags.getD id {}).present with
    | false =>
      rw [if_pos (Or.inr rfl)]
      exact (im.absent id hpresent).symm
    | true =>
      rw [if_neg (by simpa using hid), hskip]
      rfl

theorem fed_of_unknown {sd : StreamDecoder} {id : Nat} (hid : id ≥ sd.tok_.vocab_size) :
    sd.fed id = [] := by
  unfold fed
  unfold Tokenizer.vocab_size at hid
  cases himpl : sd.tok_.impl_ with
  | none => rfl
  | some im =>
    rw [himpl] at hid
    unfold Tokenizer.decoded_bytes
    exact if_pos (Or.inl hid)

theorem fed_of_skipped {sd : StreamDecoder} {id : Nat}
    (hskip : (sd.skip_special_ && sd.tok_.is_special id) = true) : sd.fed id = [] := by
  unfold fed
  unfold Tokenizer.is_special at hskip
  cases himpl : sd.tok_.impl_ with
  | none => rfl
  | some im =>
    rw [himpl] at hskip
    simp only [Bool.and_eq_true] at hskip ⊢
    unfold Tokenizer.decoded_bytes
    split
    · rfl
    · rw [hskip.1, hskip.2.2]
      rfl

/-- What `chunk` returned from `sd`, going to `sd'`, says of the text `s` it read: the chunk is
    the text of some units, it is valid UTF-8, and whatever follows, the scan of the stream goes
    on from what `sd'` holds. -/
structure Reads (sd : StreamDecoder) (s : Bytes) (chunks : List Bytes) (sd' : StreamDecoder) :
    Prop where
  same_tok : sd'.tok_ = sd.tok_
  same_skip : sd'.skip_special_ = sd.skip_special_
  valid : ∀ chunk ∈ chunks, valid_utf8 chunk
  units : ∃ us, chunks.flatten = encode_all (us.map unit_code) ∧
    ∀ t, utf8_scanner.units (sd.pending_ ++ (s ++ t)) =
      us ++ utf8_scanner.units (sd'.pending_ ++ t)

theorem valid_utf8_nil : valid_utf8 [] :=
  valid_utf8_iff.mpr ⟨[], nofun, rfl⟩

/-- A push that returns early reads nothing. -/
theorem Reads.idle (sd : StreamDecoder) : Reads sd [] [[]] sd where
  same_tok := rfl
  same_skip := rfl
  valid chunk h := by
    rw [List.mem_singleton.mp h]
    exact valid_utf8_nil
  units := ⟨[], rfl, fun _ => rfl⟩

/-- What is left after `erase(0, size - held)` is the pending beginning. -/
theorem drop_held (s : Bytes) :
    s.drop (s.length - (utf8_lossy s true).2) = utf8_scanner.pending s := by
  rw [utf8_lossy_hold]
  have hsplit := utf8_scanner.finished_append_pending s
  have hlen : s.length = ((utf8_scanner.finished s).flatMap Prod.snd).length +
      (utf8_scanner.pending s).length := by
    rw [← List.length_append, hsplit]
  simp only
  rw [hlen, Nat.add_sub_cancel]
  calc s.drop ((utf8_scanner.finished s).flatMap Prod.snd).length
      = ((utf8_scanner.finished s).flatMap Prod.snd ++ utf8_scanner.pending s).drop
          ((utf8_scanner.finished s).flatMap Prod.snd).length := by rw [hsplit]
    _ = utf8_scanner.pending s := List.drop_left

theorem push_reads (sd : StreamDecoder) (id : Nat) :
    Reads sd (sd.fed id) [(sd.push id).1] (sd.push id).2 := by
  unfold push
  split
  next hid =>
    rw [fed_of_unknown hid]
    exact Reads.idle sd
  next hid =>
  split
  next hskip =>
    rw [fed_of_skipped hskip]
    exact Reads.idle sd
  next hskip =>
    rw [Bool.not_eq_true] at hskip
    rw [fed_eq_token_bytes (Nat.not_le.mp hid) hskip]
    simp only
    refine { same_tok := rfl, same_skip := rfl, valid := ?_, units := ?_ }
    · intro chunk h
      rw [List.mem_singleton.mp h]
      exact utf8_lossy_valid _ true
    · refine ⟨utf8_scanner.finished (sd.pending_ ++ sd.tok_.token_bytes id), ?_, ?_⟩
      · rw [utf8_lossy_hold, List.flatten_singleton]
      · intro t
        rw [drop_held, ← List.append_assoc]
        exact utf8_scanner.units_append _ t

/-! ### A whole stream -/

theorem Reads.append {sd sd' sd'' : StreamDecoder} {s s' : Bytes} {chunks chunks' : List Bytes}
    (h : Reads sd s chunks sd') (h' : Reads sd' s' chunks' sd'') :
    Reads sd (s ++ s') (chunks ++ chunks') sd'' where
  same_tok := h'.same_tok.trans h.same_tok
  same_skip := h'.same_skip.trans h.same_skip
  valid chunk hchunk := by
    rcases List.mem_append.mp hchunk with hchunk | hchunk
    · exact h.valid chunk hchunk
    · exact h'.valid chunk hchunk
  units := by
    obtain ⟨us, hout, hscan⟩ := h.units
    obtain ⟨us', hout', hscan'⟩ := h'.units
    refine ⟨us ++ us', ?_, ?_⟩
    · rw [List.flatten_append, hout, hout', List.map_append, encode_all_append]
    · intro t
      rw [List.append_assoc s, hscan, hscan', List.append_assoc]

theorem fed_eq {sd sd' : StreamDecoder} (htok : sd'.tok_ = sd.tok_)
    (hskip : sd'.skip_special_ = sd.skip_special_) : sd'.fed = sd.fed := by
  funext id
  unfold fed
  rw [htok, hskip]

theorem push_all_reads (sd : StreamDecoder) (ids : List Nat) :
    Reads sd (ids.flatMap sd.fed) (sd.push_all ids).1 (sd.push_all ids).2 := by
  induction ids generalizing sd with
  | nil =>
    exact { same_tok := rfl, same_skip := rfl, valid := nofun, units := ⟨[], rfl, fun _ => rfl⟩ }
  | cons id ids ih =>
    have hpush := push_reads sd id
    have hrest := ih (sd.push id).2
    rw [fed_eq hpush.same_tok hpush.same_skip] at hrest
    exact hpush.append hrest

theorem decode_eq (sd : StreamDecoder) (ids : List Nat) :
    sd.tok_.decode ids sd.skip_special_ = (utf8_lossy (ids.flatMap sd.fed)).1 := by
  unfold Tokenizer.decode fed
  cases sd.tok_.impl_ with
  | none =>
    have hnone : ids.flatMap (fun _ => ([] : Bytes)) = [] :=
      List.flatMap_eq_nil_iff.mpr fun _ _ => rfl
    rw [hnone]
    rfl
  | some im => rfl

/-- Streaming equals batch decoding: whatever the ids, the chunks of every `push` and of the
    final `flush` add up to `decode` of the whole sequence, and each of them is valid UTF-8. -/
theorem stream_eq_decode (tok : Tokenizer) (skip_special : Bool) (ids : List Nat) :
    (stream { tok_ := tok, skip_special_ := skip_special } ids).flatten =
        tok.decode ids skip_special ∧
      ∀ chunk ∈ stream { tok_ := tok, skip_special_ := skip_special } ids, valid_utf8 chunk := by
  have hreads := push_all_reads { tok_ := tok, skip_special_ := skip_special } ids
  constructor
  · obtain ⟨us, hout, hscan⟩ := hreads.units
    have hall := hscan []
    rw [List.append_nil, List.append_nil] at hall
    unfold stream flush
    rw [decode_eq { tok_ := tok, skip_special_ := skip_special } ids, List.flatten_append, hout,
      List.flatten_singleton, utf8_lossy_eq, utf8_lossy_eq]
    unfold code_points
    rw [← encode_all_append, ← List.map_append, ← hall]
    rfl
  · intro chunk hchunk
    rcases List.mem_append.mp hchunk with hchunk | hchunk
    · exact hreads.valid chunk hchunk
    · rw [List.mem_singleton.mp hchunk]
      exact utf8_lossy_valid _ false

end StreamDecoder

end CachedMoe.Text
