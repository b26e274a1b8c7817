import CachedMoe.Text.Load
import CachedMoe.Text.Split
import CachedMoe.Text.Bpe

/-! # What a loaded tokenizer holds

    The tables `load` leaves, from the loops that fill them: the bytes of every token of the file,
    the tokens of the 256 bytes, merges that join strings, and tries over the added tokens. The
    file is assumed to give one id to one string, and the sizes to fit 32 bits. -/

namespace CachedMoe.Text

theorem bind_eq_ok {ε α β : Type} {x : Except ε α} {f : α → Except ε β} {b : β}
    (h : x >>= f = .ok b) : ∃ a, x = .ok a ∧ f a = .ok b := by
  cases x with
  | error e => cases h
  | ok a => exact ⟨a, rfl, h⟩

/-! ### The tokens of a file -/

def added_entry (a : JsonValue) : Bytes × Nat := (added_content a, added_id a)

/-- The added tokens of the file: content and id. -/
def added_entries (doc : JsonValue) : List (Bytes × Nat) :=
  match (doc.at_key (utf8 "added_tokens")).bind JsonValue.as_array with
  | .ok aarr => aarr.map added_entry
  | .error _ => []

/-- No id stands for two strings. -/
def Consistent (es : List (Bytes × Nat)) : Prop :=
  ∀ e ∈ es, ∀ e' ∈ es, e.2 = e'.2 → e.1 = e'.1

/-- The bytes of all the strings together. -/
def total (es : List (Bytes × Nat)) : Nat := (es.map fun e => e.1.length).sum

theorem total_append (es es' : List (Bytes × Nat)) : total (es ++ es') = total es + total es' := by
  unfold total
  rw [List.map_append, List.sum_append]

theorem total_singleton (e : Bytes × Nat) : total [e] = e.1.length := by
  simp [total]

theorem Consistent.subset {es es' : List (Bytes × Nat)} (h : Consistent es') (hsub : es ⊆ es') :
    Consistent es :=
  fun e he e' he' => h e (hsub he) e' (hsub he')

/-! ### Strings and flags -/

/-- Every token written so far is still there. -/
structure Strings.Holds (s : Strings) (done : List (Bytes × Nat)) : Prop where
  sizes : s.flags.length = s.str.length
  token : ∀ e ∈ done, e.2 < s.str.length ∧ s.str.getD e.2 [] = e.1 ∧
    (s.flags.getD e.2 {}).present = true

theorem Strings.Holds.write {s s' : Strings} {done : List (Bytes × Nat)} {id : Nat} {k : Bytes}
    {mark : Flags → Flags} (h : s.Holds done) (hwrite : s.write id k mark = .ok s')
    (hmark : ∀ f, (mark f).present = true) (hsame : ∀ e ∈ done, e.2 = id → e.1 = k) :
    s'.Holds (done ++ [(k, id)]) ∧ s'.str.length = s.str.length := by
  unfold Strings.write at hwrite
  split at hwrite
  next hid =>
    cases hwrite
    refine ⟨{ sizes := by simp [h.sizes], token := ?_ }, by simp⟩
    intro e he
    simp only [List.length_set, List.getD_eq_getElem?_getD]
    by_cases heq : id = e.2
    · rw [← heq, List.getElem?_set_self hid, List.getElem?_set_self (h.sizes ▸ hid)]
      refine ⟨hid, ?_, hmark _⟩
      rcases List.mem_append.mp he with he | he
      · exact (hsame e he heq.symm).symm
      · rw [List.mem_singleton.mp he]
        rfl
    · rw [List.getElem?_set_ne heq, List.getElem?_set_ne heq]
      rcases List.mem_append.mp he with he | he
      · simpa only [List.getD_eq_getElem?_getD] using h.token e he
      · rw [List.mem_singleton.mp he] at heq
        exact absurd rfl heq
  next => cases hwrite

theorem Strings.Holds.write_vocab {s s' : Strings} {done es : List (Bytes × Nat)}
    (h : s.Holds done) (hwrite : Text.write_vocab es s = .ok s') (hes : Consistent (done ++ es)) :
    s'.Holds (done ++ es) ∧ s'.str.length = s.str.length := by
  induction es generalizing s done with
  | nil =>
    cases hwrite
    rw [List.append_nil]
    exact ⟨h, rfl⟩
  | cons e es ih =>
    obtain ⟨s₁, hfirst, hrest⟩ := bind_eq_ok hwrite
    have hsame : ∀ e' ∈ done, e'.2 = e.2 → e'.1 = e.1 := by
      intro e' he' hid
      exact hes e' (List.mem_append_left _ he') e (by simp) hid
    obtain ⟨h₁, hlen₁⟩ := h.write hfirst (fun _ => rfl) hsame
    rw [show done ++ e :: es = done ++ [(e.1, e.2)] ++ es by simp] at hes ⊢
    obtain ⟨h₂, hlen₂⟩ := ih h₁ hrest hes
    exact ⟨h₂, hlen₂.trans hlen₁⟩

/-! ### Added tokens -/

/-- What the loop over the added tokens keeps: the strings, and two tries over the tokens so far
    with no more nodes than bytes. -/
structure AddedTokens.Holds (st : AddedTokens) (vocab done : List (Bytes × Nat)) : Prop where
  strings : st.strings.Holds (vocab ++ done)
  raw : ∃ path, st.raw_trie.Sound done path
  norm : ∃ path, st.norm_trie.Sound done path
  raw_nodes : st.raw_trie.nodes.length ≤ 1 + total done
  norm_nodes : st.norm_trie.nodes.length ≤ 1 + total done

theorem added_id_lt (a : JsonValue) : added_id a < 2 ^ 32 := by
  unfold added_id to_uint32
  omega

/-- One of the two tries, which takes the token or is left alone. -/
theorem sound_insert_if {t : Trie} {done : List (Bytes × Nat)} {e : Bytes × Nat}
    (h : ∃ path, t.Sound done path) (hnodes : t.nodes.length ≤ 1 + total done) (hid : e.2 < 2 ^ 32)
    (hfits : total (done ++ [e]) < 2 ^ 32) (takes : Bool) :
    (∃ path, (if takes then t.insert e.1 e.2 else t).Sound (done ++ [e]) path) ∧
      (if takes then t.insert e.1 e.2 else t).nodes.length ≤ 1 + total (done ++ [e]) := by
  obtain ⟨path, hsound⟩ := h
  rw [total_append, total_singleton] at hfits ⊢
  cases takes with
  | false => exact ⟨⟨path, hsound.mono (List.subset_append_left _ _)⟩, Nat.le_trans hnodes (by omega)⟩
  | true =>
    obtain ⟨path', hsound', hlen⟩ := hsound.insert e.1 hid (by omega)
    exact ⟨⟨path', hsound'⟩, Nat.le_trans hlen (by omega)⟩

theorem AddedTokens.Holds.add_token {st st' : AddedTokens} {vocab done : List (Bytes × Nat)}
    {a : JsonValue} (h : st.Holds vocab done) (hadd : Text.add_token st a = .ok st')
    (hes : Consistent (vocab ++ (done ++ [added_entry a])))
    (hfits : total (done ++ [added_entry a]) < 2 ^ 32) :
    st'.Holds vocab (done ++ [added_entry a]) ∧
      st'.strings.str.length = st.strings.str.length ∧ added_content a ≠ [] := by
  unfold Text.add_token at hadd
  simp only at hadd
  split at hadd
  · cases hadd
  next hcontent =>
  split at hadd
  · cases hadd
  obtain ⟨strings, hwrite, hst⟩ := bind_eq_ok hadd
  cases hst
  have hsame : ∀ e ∈ vocab ++ done, e.2 = added_id a → e.1 = added_content a := by
    intro e he hid
    rw [← List.append_assoc] at hes
    exact hes e (List.mem_append_left _ he) (added_entry a) (by simp) hid
  obtain ⟨hstrings, hlen⟩ := h.strings.write hwrite (fun _ => rfl) hsame
  obtain ⟨hraw, hraw_nodes⟩ := sound_insert_if h.raw h.raw_nodes (added_id_lt a) hfits
    (!a.bool_or (utf8 "normalized") false)
  obtain ⟨hnorm, hnorm_nodes⟩ := sound_insert_if h.norm h.norm_nodes (added_id_lt a) hfits
    (a.bool_or (utf8 "normalized") false)
  have hflip : (if !a.bool_or (utf8 "normalized") false then
        st.raw_trie.insert (added_entry a).1 (added_entry a).2 else st.raw_trie) =
      if a.bool_or (utf8 "normalized") false then st.raw_trie
        else st.raw_trie.insert (added_content a) (added_id a) := by
    cases a.bool_or (utf8 "normalized") false with
    | false => rfl
    | true => rfl
  rw [hflip] at hraw hraw_nodes
  rw [List.append_assoc] at hstrings
  exact ⟨⟨hstrings, hraw, hnorm, hraw_nodes, hnorm_nodes⟩, hlen, hcontent⟩

theorem AddedTokens.Holds.add_tokens {st st' : AddedTokens} {vocab done : List (Bytes × Nat)}
    {as : List JsonValue} (h : st.Holds vocab done) (hadd : Text.add_tokens as st = .ok st')
    (hes : Consistent (vocab ++ (done ++ as.map added_entry)))
    (hfits : total (done ++ as.map added_entry) < 2 ^ 32) :
    st'.Holds vocab (done ++ as.map added_entry) ∧
      st'.strings.str.length = st.strings.str.length ∧ ∀ a ∈ as, added_content a ≠ [] := by
  induction as generalizing st done with
  | nil =>
    cases hadd
    rw [List.map_nil, List.append_nil]
    exact ⟨h, rfl, nofun⟩
  | cons a as ih =>
    obtain ⟨st₁, hfirst, hrest⟩ := bind_eq_ok hadd
    rw [List.map_cons, show done ++ added_entry a :: as.map added_entry =
      done ++ [added_entry a] ++ as.map added_entry by simp] at hes hfits ⊢
    have hes₁ : Consistent (vocab ++ (done ++ [added_entry a])) := by
      apply hes.subset
      intro e he
      simp only [List.mem_append] at he ⊢
      tauto
    have hfits₁ : total (done ++ [added_entry a]) < 2 ^ 32 := by
      rw [total_append (done ++ [added_entry a])] at hfits
      omega
    obtain ⟨h₁, hlen₁, hcontent⟩ := h.add_token hfirst hes₁ hfits₁
    obtain ⟨h₂, hlen₂, hcontents⟩ := ih h₁ hrest hes hfits
    refine ⟨h₂, hlen₂.trans hlen₁, ?_⟩
    intro a' ha'
    rcases List.mem_cons.mp ha' with rfl | ha'
    · exact hcontent
    · exact hcontents a' ha'

/-! ### Bytes and merges -/

theorem fill_bytes_of_holds {s : Strings} {done : List (Bytes × Nat)} (h : s.Holds done)
    {e : Bytes × Nat} (he : e ∈ done) : (fill_bytes s).getD e.2 [] = bytes_of_token_string e.1 := by
  obtain ⟨hid, hstr, hpresent⟩ := h.token e he
  unfold fill_bytes
  rw [List.getD_eq_getElem?_getD] at hstr hpresent ⊢
  rw [List.getElem?_zipWith]
  rw [List.getElem?_eq_getElem hid, Option.getD_some] at hstr
  rw [List.getElem?_eq_getElem (h.sizes ▸ hid), Option.getD_some] at hpresent
  rw [List.getElem?_eq_getElem hid, List.getElem?_eq_getElem (h.sizes ▸ hid), hstr]
  simp [hpresent]

theorem read_byte_ids_get {vocab : Table Bytes Nat} {bs ids : List Nat}
    (h : read_byte_ids vocab bs = .ok ids) {i b : Nat} (hb : bs[i]? = some b) :
    ∃ id, ids[i]? = some id ∧ vocab.find (utf8_append (to_char b)) = some id := by
  induction bs generalizing ids i with
  | nil => simp at hb
  | cons b' bs ih =>
    rw [read_byte_ids] at h
    cases hfind : vocab.find (utf8_append (to_char b')) with
    | none =>
      rw [hfind] at h
      cases h
    | some id =>
      rw [hfind] at h
      obtain ⟨ids', hrest, hids⟩ := bind_eq_ok h
      cases hids
      cases i with
      | zero =>
        cases hb
        exact ⟨id, rfl, hfind⟩
      | succ i => exact ih hrest hb

theorem bytewise_of_read {vocab : Table Bytes Nat} {ids : List Nat}
    (h : read_byte_ids vocab (List.range 256) = .ok ids) : Bytewise vocab ids := by
  intro b
  obtain ⟨id, hid, hfind⟩ := read_byte_ids_get h (List.getElem?_range b.toNat_lt)
  rw [List.getD_eq_getElem?_getD, hid, Option.getD_some, spell_singleton]
  exact Table.mem_of_find hfind

/-- Every merge joins the strings of its two tokens. -/
def Joins (vocab : Table Bytes Nat) (merges : Table (Nat × Nat) (Nat × Nat)) : Prop :=
  ∀ a b rank id, merges.find (a, b) = some (rank, id) →
    ∃ s t, (s, a) ∈ vocab ∧ (t, b) ∈ vocab ∧ (s ++ t, id) ∈ vocab

theorem Joins.read_merges {vocab : Table Bytes Nat} {merges merges' : Table (Nat × Nat) (Nat × Nat)}
    {rank : Nat} {ms : List JsonValue} (h : Joins vocab merges)
    (hread : Text.read_merges vocab rank ms merges = .ok merges') : Joins vocab merges' := by
  induction ms generalizing rank merges with
  | nil =>
    cases hread
    exact h
  | cons m ms ih =>
    obtain ⟨⟨a, b⟩, -, hrest⟩ := bind_eq_ok hread
    simp only at hrest
    split at hrest
    next ia ib id ha hb hab =>
      apply ih ?_ hrest
      intro a' b' rank' id' hfind
      rw [Table.find_emplace] at hfind
      split at hfind
      next heq =>
        -- An entry that was there stays; a new one joins `a` and `b`.
        cases hold : merges.find (ia, ib) with
        | some old =>
          rw [hold] at hfind
          cases hfind
          cases heq
          exact h ia ib rank' id' hold
        | none =>
          rw [hold] at hfind
          cases hfind
          cases heq
          exact ⟨a, b, Table.mem_of_find ha, Table.mem_of_find hb, Table.mem_of_find hab⟩
      next => exact h a' b' rank' id' hfind
    next => cases hrest

/-! ### The loaded tokenizer -/

/-- What encoding and decoding rely on. -/
structure Loaded (im : Impl) (added : List (Bytes × Nat)) : Prop where
  merging : Merging im.vocab im.merges
  bytewise : Bytewise im.vocab im.byte_id
  decodes : ∀ e ∈ im.vocab ++ added,
    Tokenizer.decoded_bytes im false e.2 = bytes_of_token_string e.1
  raw : ∃ path, im.raw_trie.Sound added path
  norm : ∃ path, im.norm_trie.Sound added path
  contents : ∀ e ∈ added, e.1 ≠ []

/-- Sizes the 32-bit lengths and node numbers of the tokenizer hold. -/
structure Fits (vocab added : List (Bytes × Nat)) : Prop where
  vocab : ∀ e ∈ vocab, e.1.length < 2 ^ 32
  added : total added < 2 ^ 32

theorem loaded_of_load_impl {path : Bytes} {doc : JsonValue} {im : Impl}
    (h : load_impl path doc = .ok im) (hes : Consistent (im.vocab ++ added_entries doc))
    (hfits : Fits im.vocab (added_entries doc)) : Loaded im (added_entries doc) := by
  unfold load_impl at h
  obtain ⟨model, -, h⟩ := bind_eq_ok h
  obtain ⟨-, -, h⟩ := bind_eq_ok h
  obtain ⟨-, -, h⟩ := bind_eq_ok h
  obtain ⟨vobj, -, h⟩ := bind_eq_ok h
  obtain ⟨⟨vocab, max_id⟩, -, h⟩ := bind_eq_ok h
  obtain ⟨aarr, haarr, h⟩ := bind_eq_ok h
  obtain ⟨strings, hstrings, h⟩ := bind_eq_ok h
  obtain ⟨st, hst, h⟩ := bind_eq_ok h
  obtain ⟨byte_id, hbyte, h⟩ := bind_eq_ok h
  obtain ⟨marr, -, h⟩ := bind_eq_ok h
  obtain ⟨merges, hmerges, h⟩ := bind_eq_ok h
  cases h
  have hadded : added_entries doc = aarr.map added_entry := by
    unfold added_entries
    cases hresult : (doc.at_key (utf8 "added_tokens")).bind JsonValue.as_array with
    | error status =>
      rw [hresult] at haarr
      cases haarr
    | ok a =>
      rw [hresult] at haarr
      cases haarr
      rfl
  rw [hadded] at hes hfits ⊢
  have hvocab : Consistent ([] ++ vocab) := hes.subset (List.subset_append_left _ _)
  -- The vocabulary is written to blank vectors, then the added tokens over it.
  have hblank : ∀ n, Strings.Holds { str := List.replicate n [], flags := List.replicate n {} } [] :=
    fun n => { sizes := by simp, token := fun e he => absurd he List.not_mem_nil }
  obtain ⟨hholds, hlen⟩ := (hblank _).write_vocab hstrings hvocab
  rw [List.nil_append] at hholds
  have hstart : AddedTokens.Holds { strings } vocab [] :=
    { strings := by rw [List.append_nil]; exact hholds
      raw := ⟨_, Trie.sound_empty⟩
      norm := ⟨_, Trie.sound_empty⟩
      raw_nodes := Nat.le_refl 1
      norm_nodes := Nat.le_refl 1 }
  obtain ⟨hst, hlen', hcontents⟩ := hstart.add_tokens hst hes hfits.added
  rw [List.nil_append] at hst
  have hsize : st.strings.str.length =
      (aarr.foldl (fun m a => max m (added_id a)) max_id + 1) % 2 ^ 32 := by
    rw [hlen', hlen, List.length_replicate]
  refine { merging := ?_, bytewise := bytewise_of_read hbyte, decodes := ?_, raw := hst.raw,
           norm := hst.norm, contents := ?_ }
  · refine { consistent := ?_, fits := fun s id hs => hfits.vocab (s, id) hs, joins := ?_ }
    · intro s s' id hs hs'
      exact hvocab (s, id) hs (s', id) hs' rfl
    · have hnone : Joins vocab [] := fun a b rank id hfind => by simp at hfind
      exact hnone.read_merges hmerges
  · intro e he
    obtain ⟨hid, -, hpresent⟩ := hst.strings.token e he
    unfold Tokenizer.decoded_bytes
    rw [if_neg, if_neg (by simp)]
    · exact fill_bytes_of_holds hst.strings he
    · rw [not_or, Nat.not_le, ← hsize, Bool.not_eq_false]
      exact ⟨hid, hpresent⟩
  · intro e he
    obtain ⟨a, ha, rfl⟩ := List.mem_map.mp he
    exact hcontents a ha

end CachedMoe.Text
