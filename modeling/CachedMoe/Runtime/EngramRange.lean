import Mathlib
import CachedMoe.Runtime.EngramTables

/-! # The rows of the engram tables

    What the derivation of the tables guarantees for `hash_rows`: the products of the lookbacks
    do not overflow, the n-gram hashes are not negative, and every row is in its column's own
    part of the table. It takes primes that fit a signed 64-bit integer: from `2 ^ 63` on they
    come out negative. -/

namespace CachedMoe.Runtime

open CachedMoe.Text

/-! ### Compressed tokens -/

section TokenMap

variable {nm : NormMap} {tok : Tokenizer}

/-- The value of a key is how many there were before it. -/
def Numbered (keys : Table Bytes Int) : Prop :=
  ∀ k v, keys.find k = some v → ∃ j < keys.length, v = to_int32 (j % 2 ^ 32)

theorem numbered_nil : Numbered [] := by
  intro k v hv
  rw [Table.find_nil] at hv
  cases hv

theorem numbered_emplace {keys : Table Bytes Int} (h : Numbered keys) (k : Bytes) :
    Numbered (keys.emplace k (to_int32 (keys.length % 2 ^ 32))) ∧
      (keys.emplace k (to_int32 (keys.length % 2 ^ 32))).length ≤ keys.length + 1 ∧
      keys.length ≤ (keys.emplace k (to_int32 (keys.length % 2 ^ 32))).length ∧
      ((keys.emplace k (to_int32 (keys.length % 2 ^ 32))).find k).isSome = true := by
  rw [Table.emplace]
  split
  · rename_i hfind
    exact ⟨h, Nat.le_succ _, le_rfl, hfind⟩
  · rename_i hfind
    refine ⟨?_, ?_, ?_, ?_⟩
    · intro k' v hv
      rw [Table.find_append, Table.find_cons, Table.find_nil] at hv
      rw [List.length_append, List.length_singleton]
      cases hk : keys.find k' with
      | some v' =>
        rw [hk] at hv
        obtain rfl : v' = v := Option.some.inj hv
        obtain ⟨j, hj, hjv⟩ := h k' v' hk
        exact ⟨j, Nat.lt_succ_of_lt hj, hjv⟩
      | none =>
        rw [hk, Option.none_or] at hv
        split at hv
        · exact ⟨keys.length, Nat.lt_succ_self _, (Option.some.inj hv).symm⟩
        · cases hv
    · rw [List.length_append, List.length_singleton]
    · rw [List.length_append]
      exact Nat.le_add_right _ _
    · rw [Table.find_append, Table.find_cons, if_pos rfl, Option.isSome_or]
      exact Bool.or_true _

/-- What the loop makes of the keys and of the ids. -/
structure TokenMap (n : Nat) (keys : Table Bytes Int) (r : Table Bytes Int × List Int) : Prop where
  length : r.2.length = n
  grows : keys.length ≤ r.1.length
  bound : r.1.length ≤ keys.length + n
  token : ∀ v ∈ r.2, ∃ j < r.1.length, v = to_int32 (j % 2 ^ 32)

theorem token_map_loop_spec (n id : Nat) {keys : Table Bytes Int} (h : Numbered keys) :
    TokenMap n keys (token_map_loop nm tok n id keys) := by
  induction n generalizing id keys with
  | zero => exact ⟨rfl, le_rfl, le_rfl, fun v hv => absurd hv List.not_mem_nil⟩
  | succ n ih =>
    obtain ⟨hnumbered, hle, hge, hfind⟩ := numbered_emplace h (token_key nm tok id)
    have hrest := ih (id + 1) hnumbered
    obtain ⟨v, hv⟩ := Option.isSome_iff_exists.mp hfind
    obtain ⟨j, hj, rfl⟩ := hnumbered _ _ hv
    refine ⟨?_, ?_, ?_, ?_⟩
    · rw [token_map_loop, List.length_cons, hrest.length]
    · exact hge.trans hrest.grows
    · have hbound := hrest.bound
      rw [token_map_loop]
      dsimp only
      omega
    · intro v' hv'
      rw [token_map_loop, hv, Option.getD_some] at hv'
      rcases List.mem_cons.mp hv' with rfl | hv'
      · exact ⟨j, hj.trans_le hrest.grows, rfl⟩
      · exact hrest.token v' hv'

end TokenMap

/-! ### Multipliers -/

section Draw

theorem next64_lt (g : Pcg64) : g.next64.1 < 2 ^ 64 := by
  have hstate : g.step.state < 2 ^ 128 := Nat.mod_lt _ (Nat.two_pow_pos 128)
  have hx : g.step.state >>> 64 ^^^ g.step.state % 2 ^ 64 < 2 ^ 64 := by
    refine Nat.xor_lt_two_pow ?_ (Nat.mod_lt _ (Nat.two_pow_pos 64))
    rw [Nat.shiftRight_eq_div_pow]
    omega
  refine Nat.or_lt_two_pow ?_ (Nat.mod_lt _ (Nat.two_pow_pos 64))
  rw [Nat.shiftRight_eq_div_pow]
  exact (Nat.div_le_self _ _).trans_lt hx

/-- A product of a draw with `ex`. -/
def Product (ex m : Nat) : Prop := ∃ x < 2 ^ 64, m = x * ex

theorem product_next64 (ex : Nat) (g : Pcg64) : Product ex (g.next64.1 * ex) :=
  ⟨_, next64_lt g, rfl⟩

theorem reject_loop_product {ex threshold fuel m : Nat} {g : Pcg64} {d : Nat × Pcg64}
    (hm : Product ex m) (h : reject_loop ex threshold fuel m g = some d) : Product ex d.1 := by
  induction fuel generalizing m g with
  | zero => cases h
  | succ fuel ih =>
    rw [reject_loop] at h
    split at h
    · exact ih (product_next64 ex _) h
    · obtain rfl := Option.some.inj h
      exact hm

theorem product_high_lt {ex m : Nat} (hex : 0 < ex) (hm : Product ex m) : m >>> 64 < ex := by
  obtain ⟨x, hx, rfl⟩ := hm
  rw [Nat.shiftRight_eq_div_pow, Nat.div_lt_iff_lt_mul (Nat.two_pow_pos 64), Nat.mul_comm ex]
  exact Nat.mul_lt_mul_of_pos_right hx hex

/-- A draw is below the bound, or the range was too small to draw from. -/
theorem draw_loop_spec {rng n : Nat} {g : Pcg64} {out : List Int} (hrng : rng < 2 ^ 63)
    (h : draw_loop rng n g = some out) :
    out.length = n ∧ ∀ x ∈ out, x = -1 ∧ rng ≤ 0xFFFFFFFF ∨ 0 ≤ x ∧ x ≤ rng ∧ 0xFFFFFFFF < rng := by
  induction n generalizing g out with
  | zero =>
    obtain rfl := Option.some.inj h
    exact ⟨rfl, fun x hx => absurd hx List.not_mem_nil⟩
  | succ n ih =>
    rw [draw_loop] at h
    split at h
    · rename_i hsmall
      obtain ⟨out', hout', rfl⟩ := Option.map_eq_some_iff.mp h
      obtain ⟨hlen, hall⟩ := ih hout'
      refine ⟨congrArg (· + 1) hlen, fun x hx => ?_⟩
      rcases List.mem_cons.mp hx with rfl | hx
      · exact .inl ⟨rfl, hsmall⟩
      · exact hall x hx
    · rename_i hlarge
      obtain ⟨d, hd, hrest⟩ := Option.bind_eq_some_iff.mp h
      obtain ⟨out', hout', rfl⟩ := Option.map_eq_some_iff.mp hrest
      obtain ⟨hlen, hall⟩ := ih hout'
      have hproduct : Product (rng + 1) d.1 := by
        split at hd
        · exact reject_loop_product (product_next64 _ _) hd
        · obtain rfl := Option.some.inj hd
          exact product_next64 _ _
      have hlt := product_high_lt (Nat.succ_pos rng) hproduct
      refine ⟨congrArg (· + 1) hlen, fun x hx => ?_⟩
      rcases List.mem_cons.mp hx with rfl | hx
      · rw [Signed.of_uint64_eq (by omega)]
        exact .inr ⟨by omega, by omega, by omega⟩
      · exact hall x hx

/-- Multipliers that are drawn from the whole range. -/
theorem numpy_rng_integers_spec {seed n : Nat} {high : Int} {out : List Int} (hn : 0 < n)
    (hhigh : 1 < high) (hlt : high < 2 ^ 63) (h : numpy_rng_integers seed high n = some out)
    (hpos : out.any (· < 0) = false) :
    out.length = n ∧ 2 ^ 32 < high ∧ ∀ x ∈ out, 0 ≤ x ∧ x < high := by
  rw [numpy_rng_integers, if_neg (by omega), Signed.to_uint64_eq (by omega) hlt] at h
  obtain ⟨hlen, hall⟩ := draw_loop_spec (by omega) h
  have hdrawn : ∀ x ∈ out, 0 ≤ x ∧ x ≤ (high.toNat - 1 : Nat) ∧ 0xFFFFFFFF < high.toNat - 1 := by
    intro x hx
    have hx0 : ¬ x < 0 := mt decide_eq_true (List.any_eq_false.mp hpos x hx)
    exact (hall x hx).resolve_left fun h => hx0 (by omega)
  obtain ⟨x, hx⟩ := List.exists_mem_of_length_pos (hlen ▸ hn)
  refine ⟨hlen, ?_, fun x hx => ?_⟩
  · have := (hdrawn x hx).2.2
    omega
  · have := hdrawn x hx
    omega

end Draw

/-! ### Primes -/

section Primes

theorem two_le_of_is_prime {n : Nat} (h : is_prime n = true) : 2 ≤ n := by
  rw [is_prime] at h
  split at h
  · cases h
  · omega

theorem next_prime_spec {seen : List Nat} {fuel c d : Nat} (hc : c < 2 ^ 64)
    (h : next_prime seen fuel c = some d) : 2 ≤ d ∧ d < 2 ^ 64 := by
  induction fuel generalizing c with
  | zero => cases h
  | succ fuel ih =>
    rw [next_prime] at h
    split at h
    · exact ih (Nat.mod_lt _ (Nat.two_pow_pos 64)) h
    · rename_i hfound
      obtain rfl := Option.some.inj h
      have hprime : is_prime c = true := Bool.not_eq_false _ ▸ fun hf => hfound (.inl hf)
      exact ⟨two_le_of_is_prime hprime, hc⟩

theorem draw_heads_spec {n current : Nat} {seen : List Nat} {d : List Nat × List Nat}
    (h : draw_heads n current seen = some d) :
    d.1.length = n ∧ ∀ c ∈ d.1, 2 ≤ c ∧ c < 2 ^ 64 := by
  induction n generalizing current seen d with
  | zero =>
    obtain rfl := Option.some.inj h
    exact ⟨rfl, fun c hc => absurd hc List.not_mem_nil⟩
  | succ n ih =>
    obtain ⟨c, hc, hrest⟩ := Option.bind_eq_some_iff.mp h
    obtain ⟨d', hd', rfl⟩ := Option.map_eq_some_iff.mp hrest
    obtain ⟨hlen, hall⟩ := ih hd'
    refine ⟨congrArg (· + 1) hlen, fun c' hc' => ?_⟩
    rcases List.mem_cons.mp hc' with rfl | hc'
    · exact next_prime_spec (Nat.mod_lt _ (Nat.two_pow_pos 64)) hc
    · exact hall c' hc'

theorem draw_primes_spec {vocab n_heads orders : Nat} {seen : List Nat} {d : List Nat × List Nat}
    (h : draw_primes vocab n_heads orders seen = some d) :
    d.1.length = orders * n_heads ∧ ∀ c ∈ d.1, 2 ≤ c ∧ c < 2 ^ 64 := by
  induction orders generalizing seen d with
  | zero =>
    obtain rfl := Option.some.inj h
    exact ⟨(Nat.zero_mul _).symm, fun c hc => absurd hc List.not_mem_nil⟩
  | succ orders ih =>
    obtain ⟨first, hfirst, hrest⟩ := Option.bind_eq_some_iff.mp h
    obtain ⟨d', hd', rfl⟩ := Option.map_eq_some_iff.mp hrest
    obtain ⟨hlen, hall⟩ := draw_heads_spec hfirst
    obtain ⟨hlen', hall'⟩ := ih hd'
    refine ⟨?_, fun c hc => ?_⟩
    · rw [List.length_append, hlen, hlen', Nat.succ_mul, Nat.add_comm]
    · exact (List.mem_append.mp hc).elim (hall c) (hall' c)

/-- The offset of column `i`. -/
def offset_at (cs : List Nat) (i : Nat) : Int := ((cs.take i).map Signed.of_uint64).sum

theorem offset_at_cons (c : Nat) (cs : List Nat) (i : Nat) :
    offset_at (c :: cs) (i + 1) = Signed.of_uint64 c + offset_at cs i := by
  rw [offset_at, List.take_succ_cons, List.map_cons, List.sum_cons]
  rfl

theorem offset_at_succ {cs : List Nat} {i : Nat} (hi : i < cs.length) :
    offset_at cs (i + 1) = offset_at cs i + Signed.of_uint64 (cs.getD i 0) := by
  rw [offset_at, List.take_succ_eq_append_getElem hi, List.map_append, List.sum_append,
    List.map_singleton, List.sum_singleton, List.getD_eq_getElem _ _ hi]
  rfl

theorem offset_at_mono {cs : List Nat} (hcs : ∀ c ∈ cs, 0 ≤ Signed.of_uint64 c) :
    Monotone (offset_at cs) := by
  refine monotone_nat_of_le_succ fun i => ?_
  by_cases hi : i < cs.length
  · rw [offset_at_succ hi, List.getD_eq_getElem _ _ hi]
    exact le_add_of_nonneg_right (hcs _ (List.getElem_mem hi))
  · rw [offset_at, offset_at, List.take_of_length_le (not_lt.mp hi),
      List.take_of_length_le (Nat.le_succ_of_le (not_lt.mp hi))]

theorem place_columns_spec {cs : List Nat} {off : Int} {p : List Int × Int}
    (h : place_columns cs off = some p) :
    p.2 = off + offset_at cs cs.length ∧ (Signed.Fits off → Signed.Fits p.2) ∧
      ∀ i < cs.length, p.1.getD i 0 = off + offset_at cs i := by
  induction cs generalizing off p with
  | nil =>
    obtain rfl := Option.some.inj h
    exact ⟨(add_zero off).symm, id, fun i hi => absurd hi (Nat.not_lt_zero i)⟩
  | cons c cs ih =>
    obtain ⟨next, hnext, hrest⟩ := Option.bind_eq_some_iff.mp h
    obtain ⟨r, hr, rfl⟩ := Option.map_eq_some_iff.mp hrest
    obtain ⟨rfl, hfits⟩ := Signed.of_checked hnext
    obtain ⟨hlast, hlastfits, hall⟩ := ih hr
    refine ⟨?_, fun _ => hlastfits hfits, fun i hi => ?_⟩
    · rw [hlast, List.length_cons, offset_at_cons, add_assoc]
    · cases i with
      | zero => exact (add_zero off).symm
      | succ i =>
        rw [List.getD_cons_succ, hall i (Nat.lt_of_succ_lt_succ hi), offset_at_cons, add_assoc]

end Primes

/-! ### The rows of a layer -/

/-- The part of the table that belongs to column `col`. -/
def column (lt : LayerTable) (col : Nat) : Set Int :=
  Set.Ico (lt.offsets.getD col 0) (lt.offsets.getD col 0 + lt.primes.getD col 0)

/-- What `hash_rows` does for every history of tokens of the vocabulary. -/
structure LayerInRange (t : EngramTables) (lt : LayerTable) : Prop where
  rows : ∀ history : List Nat, ∀ position < history.length,
    (∀ tok ∈ history, tok < t.token_map.length) →
    ∃ rows, t.hash_rows lt.layer history position kEngramRowsPerToken = some (.ok rows) ∧
      rows.length = kEngramRowsPerToken ∧
      ∀ col < kEngramRowsPerToken, (rows.getD col 0 : Int) ∈ column lt col
  past : ∀ history : List Nat, ∀ position ≥ history.length,
    t.hash_rows lt.layer history position kEngramRowsPerToken = some (fail .OutOfRange
      s!"position {position} but only {history.length} tokens of history")
  disjoint : ∀ col < kEngramRowsPerToken, ∀ col' < kEngramRowsPerToken, col ≠ col' →
    Disjoint (column lt col) (column lt col')
  inside : ∀ col < kEngramRowsPerToken, column lt col ⊆ Set.Ico 0 (lt.num_embeddings : Int)

/-- What the derivation has made sure of for a layer with the primes `cs`. -/
structure Derived (t : EngramTables) (lt : LayerTable) (cs : List Nat) : Prop where
  max_ngram : t.max_ngram = kEngramMaxNgram
  n_heads : t.n_heads = kEngramHeads
  tokens : 0 < t.token_map.length
  token : ∀ v ∈ t.token_map, 0 ≤ v ∧ v < t.compressed_vocab_size
  pad_id : 0 ≤ t.pad_id ∧ t.pad_id < t.compressed_vocab_size
  multipliers : lt.multipliers.length = kEngramMaxNgram
  multiplier : ∀ m ∈ lt.multipliers, 0 ≤ m ∧ t.compressed_vocab_size * m < 2 ^ 63
  length : cs.length = kEngramRowsPerToken
  prime : ∀ c ∈ cs, 2 ≤ c ∧ c < 2 ^ 64
  primes : lt.primes = cs.map Signed.of_uint64
  offset : ∀ i < kEngramRowsPerToken, lt.offsets.getD i 0 = offset_at cs i
  total : Signed.Fits (offset_at cs kEngramRowsPerToken) ∧
    lt.num_embeddings = Signed.to_uint64 (offset_at cs kEngramRowsPerToken)

namespace Derived

variable {t : EngramTables} {lt : LayerTable} {cs : List Nat} (hd : Derived t lt cs)
include hd

theorem getD_primes {i : Nat} (hi : i < kEngramRowsPerToken) :
    lt.primes.getD i 0 = Signed.of_uint64 (cs.getD i 0) := by
  have hlt : i < cs.length := hd.length.symm ▸ hi
  rw [hd.primes, List.getD_eq_getElem _ _ (by rw [List.length_map]; exact hlt), List.getElem_map,
    List.getD_eq_getElem _ _ hlt]

theorem column_eq {i : Nat} (hi : i < kEngramRowsPerToken) :
    column lt i = Set.Ico (offset_at cs i) (offset_at cs (i + 1)) := by
  rw [column, hd.offset i hi, hd.getD_primes hi, offset_at_succ (hd.length.symm ▸ hi)]

/-- The product of a compressed token and a multiplier fits. -/
theorem mul_eq {v m : Int} (hv : 0 ≤ v ∧ v < t.compressed_vocab_size) (hm : m ∈ lt.multipliers) :
    Signed.mul v m = some (v * m) ∧ 0 ≤ v * m ∧ v * m < 2 ^ 63 := by
  obtain ⟨hm0, hlt⟩ := hd.multiplier m hm
  have hprod : v * m < 2 ^ 63 := (mul_le_mul_of_nonneg_right hv.2.le hm0).trans_lt hlt
  have hprod0 : 0 ≤ v * m := mul_nonneg hv.1 hm0
  exact ⟨Signed.checked_eq hprod0 hprod, hprod0, hprod⟩

theorem lookback_loop_ok {history : List Nat} {position : Nat}
    (hposition : position < history.length)
    (hhistory : ∀ tok ∈ history, tok < t.token_map.length) {n shift : Nat} (blocked : Bool)
    (hn : shift + n ≤ kEngramMaxNgram) :
    ∃ prods, t.lookback_loop lt history position n shift blocked = some (.ok prods) ∧
      prods.length = n ∧ ∀ x ∈ prods, 0 ≤ x ∧ x < 2 ^ 63 := by
  induction n generalizing shift blocked with
  | zero => exact ⟨[], rfl, rfl, fun x hx => absurd hx List.not_mem_nil⟩
  | succ n ih =>
    have htok : history.getD (position - shift) 0 < t.token_map.length := by
      rw [List.getD_eq_getElem _ _ (by omega)]
      exact hhistory _ (List.getElem_mem _)
    have hm : lt.multipliers.getD shift 0 ∈ lt.multipliers := by
      rw [List.getD_eq_getElem _ _ (by rw [hd.multipliers]; omega)]
      exact List.getElem_mem _
    have hcompressed : ∀ b : Bool, ∃ v, v = (if b then t.pad_id
        else t.token_map.getD (history.getD (position - shift) 0) 0) ∧
        0 ≤ v ∧ v < t.compressed_vocab_size := by
      intro b
      cases b with
      | true => exact ⟨_, rfl, hd.pad_id⟩
      | false =>
        refine ⟨_, rfl, ?_⟩
        rw [if_neg Bool.false_ne_true, List.getD_eq_getElem _ _ htok]
        exact hd.token _ (List.getElem_mem _)
    obtain ⟨prods, hprods, hlen, hall⟩ := @ih (shift + 1)
      (blocked || decide (position < shift)) (by omega)
    obtain ⟨v, hv, hrange⟩ := hcompressed (blocked || decide (position < shift))
    obtain ⟨hmul, hprod0, hprod⟩ := hd.mul_eq hrange hm
    refine ⟨v * lt.multipliers.getD shift 0 :: prods, ?_, congrArg (· + 1) hlen, fun x hx => ?_⟩
    · rw [EngramTables.lookback_loop, if_neg (fun h => h.2.not_gt htok), ← hv]
      dsimp only
      rw [hmul, Option.bind_some, hprods]
      rfl
    · rcases List.mem_cons.mp hx with rfl | hx
      · exact ⟨hprod0, hprod⟩
      · exact hall x hx

theorem of_uint64_prime (hcs : ∀ c ∈ cs, c < 2 ^ 63) : ∀ c ∈ cs, 0 < Signed.of_uint64 c := by
  intro c hc
  obtain ⟨h2, h64⟩ := hd.prime c hc
  exact (Signed.of_uint64_pos_iff h64).mpr ⟨by omega, hcs c hc⟩

theorem offset_at_bounds (hcs : ∀ c ∈ cs, c < 2 ^ 63) {i : Nat} (hi : i ≤ kEngramRowsPerToken) :
    0 ≤ offset_at cs i ∧ offset_at cs i ≤ lt.num_embeddings ∧
      (lt.num_embeddings : Int) < 2 ^ 63 := by
  have hmono := offset_at_mono fun c hc => (hd.of_uint64_prime hcs c hc).le
  have hzero : 0 ≤ offset_at cs i := hmono (Nat.zero_le i)
  have hlast : offset_at cs i ≤ offset_at cs kEngramRowsPerToken := hmono hi
  obtain ⟨hfits, htotal⟩ := hd.total
  rw [Signed.to_uint64_eq (hzero.trans hlast) hfits.2] at htotal
  have := hfits.2
  omega

/-- A hash that is not negative finds a row in each of the next columns. -/
theorem head_loop_ok (hcs : ∀ c ∈ cs, c < 2 ^ 63) {rolling : Int} (hrolling : 0 ≤ rolling)
    {n col : Nat} (hn : col + n ≤ kEngramRowsPerToken) :
    ∃ rows, EngramTables.head_loop lt rolling n col = some (.ok rows) ∧ rows.length = n ∧
      ∀ k < n, (rows.getD k 0 : Int) ∈ column lt (col + k) := by
  induction n generalizing col with
  | zero => exact ⟨[], rfl, rfl, fun k hk => absurd hk (Nat.not_lt_zero k)⟩
  | succ n ih =>
    have hcol : col < kEngramRowsPerToken := by omega
    have hcs' : col < cs.length := hd.length.symm ▸ hcol
    obtain ⟨rows, hrows, hlen, hall⟩ := @ih (col + 1) (by omega)
    have hprime : 0 < lt.primes.getD col 0 := by
      rw [hd.getD_primes hcol, List.getD_eq_getElem _ _ hcs']
      exact hd.of_uint64_prime hcs _ (List.getElem_mem hcs')
    have hnext : offset_at cs (col + 1) = offset_at cs col + lt.primes.getD col 0 := by
      rw [hd.getD_primes hcol, offset_at_succ hcs']
    obtain ⟨hoff, -, -⟩ := hd.offset_at_bounds hcs hcol.le
    obtain ⟨-, hle, hlt⟩ := hd.offset_at_bounds hcs (i := col + 1) hcol
    have hr := Int.emod_nonneg rolling hprime.ne'
    have hr' := Int.emod_lt_of_pos rolling hprime
    have hadd : Signed.add (rolling % lt.primes.getD col 0) (lt.offsets.getD col 0) =
        some (rolling % lt.primes.getD col 0 + lt.offsets.getD col 0) := by
      rw [hd.offset col hcol]
      exact Signed.checked_eq (by omega) (by omega)
    rw [hd.offset col hcol] at hadd
    have hrow : Signed.to_uint64 (rolling % lt.primes.getD col 0 + offset_at cs col) =
        (rolling % lt.primes.getD col 0 + offset_at cs col).toNat :=
      Signed.to_uint64_eq (by omega) (by omega)
    refine ⟨(rolling % lt.primes.getD col 0 + offset_at cs col).toNat :: rows, ?_,
      congrArg (· + 1) hlen, fun k hk => ?_⟩
    · rw [EngramTables.head_loop, Signed.rem_eq hrolling hprime, Option.bind_some,
        hd.offset col hcol, hadd, Option.bind_some, hrow, if_neg (by omega), hrows]
      rfl
    · cases k with
      | zero =>
        rw [List.getD_cons_zero, Nat.add_zero, hd.column_eq hcol, Set.mem_Ico]
        omega
      | succ k =>
        rw [List.getD_cons_succ, ← Nat.add_assoc, Nat.add_right_comm]
        exact hall k (Nat.lt_of_succ_lt_succ hk)

theorem order_loop_ok (hcs : ∀ c ∈ cs, c < 2 ^ 63) {prods : List Int}
    (hprods : ∀ i, 0 ≤ prods.getD i 0 ∧ prods.getD i 0 < 2 ^ 63) {n i : Nat} {rolling : Int}
    (hrolling : 0 ≤ rolling ∧ rolling < 2 ^ 63)
    (hn : (i + n) * kEngramHeads ≤ kEngramRowsPerToken) :
    ∃ rows, t.order_loop lt prods n (i + 1) rolling = some (.ok rows) ∧
      rows.length = n * kEngramHeads ∧
      ∀ k < n * kEngramHeads, (rows.getD k 0 : Int) ∈ column lt (i * kEngramHeads + k) := by
  induction n generalizing i rolling with
  | zero => exact ⟨[], rfl, (Nat.zero_mul _).symm, fun k hk => absurd hk (by omega)⟩
  | succ n ih =>
    have hxor := Signed.xor_nonneg hrolling.1 hrolling.2 (hprods (i + 1)).1 (hprods (i + 1)).2
    have hcol : i * kEngramHeads + kEngramHeads ≤ kEngramRowsPerToken := by
      simp only [kEngramHeads] at hn ⊢
      omega
    obtain ⟨rows, hrows, hlen, hall⟩ := hd.head_loop_ok hcs hxor.1 hcol
    obtain ⟨rest, hrest, hlen', hall'⟩ := ih (i := i + 1) hxor (by
      rw [Nat.add_right_comm, Nat.add_assoc]
      exact hn)
    refine ⟨rows ++ rest, ?_, ?_, fun k hk => ?_⟩
    · rw [EngramTables.order_loop, hd.n_heads, Nat.add_sub_cancel, hrows]
      exact congrArg (fun o => Outcome.andThen o fun rest => some (.ok (rows ++ rest))) hrest
    · rw [List.length_append, hlen, hlen', Nat.succ_mul, Nat.add_comm]
    · by_cases hfirst : k < kEngramHeads
      · rw [List.getD_append _ _ _ _ (hlen.symm ▸ hfirst)]
        exact hall k hfirst
      · have hk' : k - kEngramHeads < n * kEngramHeads := by
          rw [Nat.succ_mul] at hk
          omega
        have hindex : (i + 1) * kEngramHeads + (k - kEngramHeads) = i * kEngramHeads + k := by
          rw [Nat.succ_mul]
          omega
        rw [List.getD_append_right _ _ _ _ (by rw [hlen]; exact not_lt.mp hfirst), hlen, ← hindex]
        exact hall' _ hk'

/-- Where every prime fits, every history finds its rows in the columns. -/
theorem layer_in_range (hlayer : t.for_layer lt.layer = some lt) (hcs : ∀ c ∈ cs, c < 2 ^ 63) :
    LayerInRange t lt where
  rows history position hposition hhistory := by
    obtain ⟨prods, hprods, -, hall⟩ := @lookback_loop_ok t lt cs hd history position hposition
      hhistory kEngramMaxNgram 0 false (Nat.zero_add _).le
    have hprod : ∀ i, 0 ≤ prods.getD i 0 ∧ prods.getD i 0 < 2 ^ 63 := by
      intro i
      by_cases hi : i < prods.length
      · rw [List.getD_eq_getElem _ _ hi]
        exact hall _ (List.getElem_mem hi)
      · rw [List.getD_eq_default _ _ (not_lt.mp hi)]
        exact ⟨le_rfl, by decide⟩
    obtain ⟨rows, hrows, hlen, hcolumn⟩ := hd.order_loop_ok hcs hprod (n := kEngramMaxNgram - 1)
      (i := 0) (hprod 0) (by decide)
    refine ⟨rows, ?_, hlen, fun col hcol => ?_⟩
    · rw [EngramTables.hash_rows, hlayer]
      dsimp only
      rw [if_neg (not_not.mpr rfl), if_neg (not_le.mpr hposition), hd.max_ngram, hprods]
      exact hrows
    · have := hcolumn col hcol
      rw [Nat.zero_mul, Nat.zero_add] at this
      exact this
  past history position hposition := by
    rw [EngramTables.hash_rows, hlayer]
    dsimp only
    rw [if_neg (not_not.mpr rfl), if_pos hposition]
  disjoint col hcol col' hcol' hne := by
    have hmono := offset_at_mono fun c hc => (hd.of_uint64_prime hcs c hc).le
    rw [hd.column_eq hcol, hd.column_eq hcol', Set.Ico_disjoint_Ico]
    rcases Nat.lt_or_gt_of_ne hne with hlt | hlt
    · exact (min_le_left _ _).trans ((hmono hlt).trans (le_max_right _ _))
    · exact (min_le_right _ _).trans ((hmono hlt).trans (le_max_left _ _))
  inside col hcol := by
    rw [hd.column_eq hcol]
    exact Set.Ico_subset_Ico (hd.offset_at_bounds hcs hcol.le).1
      (hd.offset_at_bounds hcs (i := col + 1) hcol).2.1

/-- A row in a column shows that its prime is positive. -/
theorem lt_of_layer_in_range (h : LayerInRange t lt) : ∀ c ∈ cs, c < 2 ^ 63 := by
  intro c hc
  obtain ⟨rows, -, -, hall⟩ := h.rows [0] 0 Nat.one_pos fun tok htok => by
    obtain rfl := List.mem_singleton.mp htok
    exact hd.tokens
  obtain ⟨col, hcol, rfl⟩ := List.getElem_of_mem hc
  have hcol' : col < kEngramRowsPerToken := hd.length ▸ hcol
  have hrow := hall col hcol'
  rw [column, hd.getD_primes hcol', List.getD_eq_getElem _ _ hcol, Set.mem_Ico] at hrow
  exact ((Signed.of_uint64_pos_iff (hd.prime _ hc).2).mp (by omega)).2

end Derived

/-! ### The derivation -/

section Derive

variable {nm : NormMap} {tok : Tokenizer} {cfg : EngramConfig} {bound : Int}

/-- A layer as the loop makes it. -/
structure Made (cfg : EngramConfig) (bound : Int) (lt : LayerTable) (cs : List Nat) : Prop where
  multipliers : ∃ seed m, numpy_rng_integers seed bound cfg.engram_max_ngram_size = some m ∧
    m.any (· < 0) = false ∧ lt.multipliers = m.map (· * 2 + 1)
  drawn : ∃ seen d, draw_primes cfg.engram_vocab_size cfg.engram_n_heads
    (cfg.engram_max_ngram_size - 1) seen = some d ∧ d.1 = cs
  primes : lt.primes = cs.map Signed.of_uint64
  placed : ∃ p, place_columns cs 0 = some p ∧ lt.offsets = p.1 ∧
    lt.num_embeddings = Signed.to_uint64 p.2

theorem layer_loop_spec {ls : List (Int × Int)} {seen : List Nat} {layers : List LayerTable}
    (h : layer_loop cfg bound ls seen = some (.ok layers)) {li : Nat} {lt : LayerTable}
    (hli : layers[li]? = some lt) :
    ∃ cs, layer_primes cfg li seen = some cs ∧ Made cfg bound lt cs := by
  induction ls generalizing seen layers li with
  | nil =>
    obtain rfl : [] = layers := Except.ok.inj (Option.some.inj h)
    cases hli
  | cons l rest ih =>
    obtain ⟨m, hm, h⟩ := Option.bind_eq_some_iff.mp h
    split at h
    · cases h
    · rename_i hpos
      obtain ⟨d, hd, h⟩ := Option.bind_eq_some_iff.mp h
      obtain ⟨p, hp, h⟩ := Option.bind_eq_some_iff.mp h
      split at h
      · cases h
      · rename_i htotal
        obtain ⟨layers', hlayers', h⟩ := andThen_ok h
        obtain rfl := Except.ok.inj (Option.some.inj h)
        cases li with
        | zero =>
          obtain rfl := Option.some.inj hli
          refine ⟨d.1, ?_, ⟨_, m, hm, Bool.not_eq_true _ ▸ hpos, rfl⟩, ⟨seen, d, hd, rfl⟩, rfl,
            p, hp, rfl, (not_not.mp htotal).symm⟩
          rw [layer_primes, hd]
          rfl
        | succ li =>
          obtain ⟨cs, hcs, hmade⟩ := ih hlayers' hli
          refine ⟨cs, ?_, hmade⟩
          rw [layer_primes, hd]
          exact hcs

/-- The bound leaves room for a compressed token, a factor of two and the bound itself. -/
theorem bound_spec {V : Nat} (hV0 : 0 < V) (hV : V < 2 ^ 32)
    (hbound : bound = max 1 ((2 ^ 63 - 1) / (V : Int) / 2)) :
    1 < bound ∧ bound < 2 ^ 63 ∧ V * (2 * bound) < 2 ^ 63 := by
  have hpos : (0 : Int) < V := Int.natCast_pos.mpr hV0
  obtain ⟨a, ha⟩ : ∃ a : Int, a = (2 ^ 63 - 1) / (V : Int) := ⟨_, rfl⟩
  have hle : a * V ≤ 2 ^ 63 - 1 := ha ▸ Int.ediv_mul_le _ hpos.ne'
  have hlarge : 4 ≤ a := ha ▸ Int.le_ediv_of_mul_le hpos (by omega)
  have hself : a ≤ 2 ^ 63 - 1 := ha ▸ Int.ediv_le_self _ (by decide)
  have hbound' : bound = a / 2 := by
    rw [hbound, ← ha, max_eq_right (by omega)]
  have hroom : (V : Int) * (2 * bound) ≤ V * a := mul_le_mul_of_nonneg_left (by omega) hpos.le
  rw [mul_comm (V : Int) a] at hroom
  exact ⟨by omega, by omega, by omega⟩

theorem Made.derived {t : EngramTables} {lt : LayerTable} {cs : List Nat}
    (hmade : Made cfg bound lt cs) (hngram : cfg.engram_max_ngram_size = kEngramMaxNgram)
    (hheads : cfg.engram_n_heads = kEngramHeads) {keys : Table Bytes Int} {n : Nat}
    (hn : n < 2 ^ 32) (hmap : TokenMap n [] (keys, t.token_map)) (hpad : t.pad_id ∈ t.token_map)
    (hV : t.compressed_vocab_size = keys.length % 2 ^ 32)
    (hbound : bound = max 1 ((2 ^ 63 - 1) / (t.compressed_vocab_size : Int) / 2))
    (ht : t.max_ngram = kEngramMaxNgram ∧ t.n_heads = kEngramHeads) : Derived t lt cs := by
  obtain ⟨seed, m, hm, hpos, hmultipliers⟩ := hmade.multipliers
  obtain ⟨seen, d, hd, rfl⟩ := hmade.drawn
  obtain ⟨p, hp, hoffsets, htotal⟩ := hmade.placed
  rw [hngram] at hm hd
  rw [hheads] at hd
  obtain ⟨hlen, hprime⟩ := draw_primes_spec hd
  have hlen : d.1.length = kEngramRowsPerToken := hlen
  have hkeys : t.compressed_vocab_size = keys.length := by
    have : keys.length ≤ 0 + n := hmap.bound
    rw [hV, Nat.mod_eq_of_lt (by omega)]
  have hV0 : 0 < t.compressed_vocab_size := by
    obtain ⟨j, hj, -⟩ := hmap.token _ hpad
    exact hkeys ▸ Nat.zero_lt_of_lt hj
  obtain ⟨hbound1, hboundlt, hroom⟩ := bound_spec hV0 (hV ▸ Nat.mod_lt _ (by decide)) hbound
  obtain ⟨hmlen, hlarge, hall⟩ := numpy_rng_integers_spec (by decide) hbound1 hboundlt hm hpos
  -- the bound leaves each product of a multiplier and a token below `2 ^ 63`
  have hsmall : t.compressed_vocab_size < 2 ^ 31 := by
    have : (t.compressed_vocab_size : Int) * (2 * 2 ^ 32) ≤ t.compressed_vocab_size * (2 * bound) :=
      mul_le_mul_of_nonneg_left (by omega) (Int.natCast_nonneg _)
    omega
  have htoken : ∀ v ∈ t.token_map, 0 ≤ v ∧ v < t.compressed_vocab_size := by
    intro v hv
    obtain ⟨j, hj, rfl⟩ := hmap.token v hv
    have hj' : j < t.compressed_vocab_size := hkeys ▸ hj
    rw [Nat.mod_eq_of_lt (by omega), to_int32, if_pos (by omega)]
    omega
  obtain ⟨hlast, hfits, hoffset⟩ := place_columns_spec hp
  rw [hlen, zero_add] at hlast
  exact {
    max_ngram := ht.1
    n_heads := ht.2
    tokens := List.length_pos_of_mem hpad
    token := htoken
    pad_id := htoken _ hpad
    multipliers := by rw [hmultipliers, List.length_map, hmlen]
    multiplier := by
      intro x hx
      rw [hmultipliers] at hx
      obtain ⟨y, hy, rfl⟩ := List.mem_map.mp hx
      obtain ⟨hy0, hylt⟩ := hall y hy
      refine ⟨by omega, lt_of_le_of_lt ?_ hroom⟩
      exact mul_le_mul_of_nonneg_left (by omega) (Int.natCast_nonneg _)
    length := hlen
    prime := hprime
    primes := hmade.primes
    offset := by
      intro i hi
      rw [hoffsets, hoffset i (hlen.symm ▸ hi), zero_add]
    total := by
      rw [← hlast]
      exact ⟨hfits ⟨by decide, by decide⟩, htotal⟩ }

theorem derive_engram_tables_spec {t : EngramTables}
    (h : derive_engram_tables nm tok cfg = some (.ok t)) {li : Nat} {lt : LayerTable}
    (hli : t.layers[li]? = some lt) : ∃ cs, layer_primes cfg li [] = some cs ∧ Derived t lt cs := by
  have hmap := @token_map_loop_spec nm tok (tok.vocab_size % 2 ^ 32) 0 [] numbered_nil
  rw [derive_engram_tables] at h
  dsimp only at h
  generalize token_map_loop nm tok (tok.vocab_size % 2 ^ 32) 0 [] = r at h hmap
  split at h
  · cases h
  · rename_i hgeometry
    split at h
    · cases h
    · split at h
      · cases h
      · split at h
        · cases h
        · rename_i hpad
          obtain ⟨layers, hlayers, h⟩ := andThen_ok h
          obtain rfl := Except.ok.inj (Option.some.inj h)
          obtain ⟨cs, hcs, hmade⟩ := layer_loop_spec hlayers hli
          have hngram := not_not.mp fun h => hgeometry (.inl h)
          have hheads := not_not.mp fun h => hgeometry (.inr (.inl h))
          refine ⟨cs, hcs, hmade.derived hngram hheads (Nat.mod_lt _ (by decide)) hmap ?_ rfl rfl
            ⟨hngram, hheads⟩⟩
          have hlt : cfg.engram_pad_token_id < r.2.length := hmap.length ▸ not_le.mp hpad
          dsimp only
          rw [List.getD_eq_getElem _ _ hlt]
          exact List.getElem_mem hlt

/-- The rows of a layer stay in their columns for every history exactly if the primes drawn for
    it are all below `2 ^ 63`. -/
theorem engram_rows_in_range {t : EngramTables}
    (h : derive_engram_tables nm tok cfg = some (.ok t)) {li : Nat} {lt : LayerTable}
    (hli : t.layers[li]? = some lt) (hlayer : t.for_layer lt.layer = some lt) :
    ∃ cs, layer_primes cfg li [] = some cs ∧ (LayerInRange t lt ↔ ∀ c ∈ cs, c < 2 ^ 63) := by
  obtain ⟨cs, hcs, hd⟩ := derive_engram_tables_spec h hli
  exact ⟨cs, hcs, hd.lt_of_layer_in_range, hd.layer_in_range hlayer⟩

end Derive

/-- A vocabulary of one letter. -/
def letter_tokenizer : Tokenizer where
  impl_ := some {
    vocab_size := 1
    str := [chars ['a']]
    bytes := [chars ['a']]
    flags := [{ present := true }]
    vocab := [(chars ['a'], 0)]
    added := []
    merges := []
    byte_id := []
    raw_trie := {}
    norm_trie := {}
    absent := by
      intro id
      cases id with
      | zero => exact fun h => Bool.noConfusion h
      | succ id => exact fun _ => rfl }

def letter_config (engram_vocab_size : Nat) (rows : Int) : EngramConfig where
  engram_layer_ids := [1]
  engram_num_embeddings := [rows]
  engram_max_ngram_size := 4
  engram_vocab_size
  engram_n_heads := 8
  engram_head_dim := 256
  engram_pad_token_id := 0
  engram_compressed_vocab_size := 0

def letter_layer (rows : Nat) (primes offsets : List Int) : LayerTable where
  layer := 1
  num_embeddings := rows
  multipliers :=
    [7593627661414633239, 479593001838623259, 3563315849468963733, 7331553243427025311]
  primes
  offsets

def letter_tables (lt : LayerTable) : EngramTables where
  compressed_vocab_size := 1
  token_map := [0]
  layers := [lt]

def small_layer : LayerTable := letter_layer 963
  [2, 3, 5, 7, 11, 13, 17, 19, 23, 29, 31, 37, 41, 43, 47, 53, 59, 61, 67, 71, 73, 79, 83, 89]
  [0, 2, 5, 10, 17, 28, 41, 58, 77, 100, 129, 160, 197, 238, 281, 328, 381, 440, 501, 568, 639,
    712, 791, 874]

/-- The search starts at a prime from `2 ^ 63` on and wraps around to 2. -/
def wrapped_layer : LayerTable := letter_layer 815
  [-59, 2, 3, 5, 7, 11, 13, 17, 19, 23, 29, 31, 37, 41, 43, 47, 53, 59, 61, 67, 71, 73, 79, 83]
  [0, -59, -57, -54, -49, -42, -31, -18, -1, 18, 41, 70, 101, 138, 179, 222, 269, 322, 381, 442,
    509, 580, 653, 732]

theorem engram_rows_in_range_letter :
    LayerInRange (letter_tables small_layer) small_layer := by
  obtain ⟨cs, hcs, hrange⟩ := @engram_rows_in_range (fun _ => none) letter_tokenizer
    (letter_config 2 963) (letter_tables small_layer) (by decide) 0 small_layer rfl rfl
  have hall : ((layer_primes (letter_config 2 963) 0 []).all fun cs => cs.all (· < 2 ^ 63)) =
      true := by decide
  rw [hcs] at hall
  refine hrange.mpr fun c hc => ?_
  exact of_decide_eq_true (List.all_eq_true.mp hall c hc)

/-- A configuration that is accepted, and a history that reaches the internal error. -/
theorem engram_rows_wrapped :
    derive_engram_tables (fun _ => none) letter_tokenizer
        (letter_config 18446744073709551557 815) = some (.ok (letter_tables wrapped_layer)) ∧
      (letter_tables wrapped_layer).hash_rows 1 [0] 0 24 =
        some (fail .Internal "engram row -59 outside layer 1's 815 rows") ∧
      ¬ LayerInRange (letter_tables wrapped_layer) wrapped_layer := by
  have hrow : (letter_tables wrapped_layer).hash_rows 1 [0] 0 24 =
      some (fail .Internal "engram row -59 outside layer 1's 815 rows") := by decide
  refine ⟨by decide +kernel, hrow, fun h => ?_⟩
  obtain ⟨rows, hrows, -, -⟩ := h.rows [0] 0 Nat.one_pos fun tok htok => by
    obtain rfl := List.mem_singleton.mp htok
    exact Nat.one_pos
  cases hrow.symm.trans hrows

end CachedMoe.Runtime
